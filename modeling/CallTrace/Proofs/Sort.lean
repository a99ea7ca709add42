import CallTrace.CallGraph
import Mathlib.Data.List.Sort
import Mathlib.Data.String.Basic

namespace CallTrace

/-- Where keys are not shared, an item is what is found under its key. -/
theorem find?_eq_some_iff_of_nodup {key : α → String} {items : List α}
    (hkeys : (items.map key).Nodup) {k : String} {a : α} :
    items.find? (fun item => key item == k) = some a ↔ a ∈ items ∧ key a = k := by
  constructor
  · intro h
    exact ⟨List.mem_of_find?_eq_some h, by simpa using List.find?_some h⟩
  · rintro ⟨hmem, rfl⟩
    obtain ⟨first, hfirst⟩ : ∃ first, items.find? (fun item => key item == key a) = some first := by
      rw [← Option.isSome_iff_exists, List.find?_isSome]
      exact ⟨a, hmem, beq_self_eq_true _⟩
    have hsame : key first = key a := by simpa using List.find?_some hfirst
    rw [hfirst, List.inj_on_of_nodup_map hkeys (List.mem_of_find?_eq_some hfirst) hmem hsame]

theorem eraseDups_concat [DecidableEq α] (items : List α) (a : α) :
    (items ++ [a]).eraseDups =
      if a ∈ items then items.eraseDups else items.eraseDups ++ [a] := by
  rw [List.eraseDups_append, List.removeAll]
  by_cases hmem : a ∈ items <;> simp [hmem, List.eraseDups_cons]

theorem insertBy_eq_orderedInsert (le : α → α → Bool) (a : α) (items : List α) :
    insertBy le a items = items.orderedInsert (fun x y => le x y = true) a := by
  induction items with
  | nil => rfl
  | cons b rest ih =>
      rw [insertBy, List.orderedInsert_cons, ih]

theorem sortBy_eq_insertionSort (le : α → α → Bool) (items : List α) :
    sortBy le items = items.insertionSort (fun x y => le x y = true) := by
  induction items with
  | nil => rfl
  | cons a rest ih =>
      change insertBy le a (sortBy le rest) = _
      rw [ih, insertBy_eq_orderedInsert, List.insertionSort_cons]

theorem sortBy_perm (le : α → α → Bool) (items : List α) : (sortBy le items).Perm items := by
  rw [sortBy_eq_insertionSort]
  exact List.perm_insertionSort _ items

@[simp] theorem mem_sortBy {le : α → α → Bool} {a : α} {items : List α} :
    a ∈ sortBy le items ↔ a ∈ items :=
  (sortBy_perm le items).mem_iff

@[simp] theorem nodup_sortBy {le : α → α → Bool} {items : List α} :
    (sortBy le items).Nodup ↔ items.Nodup :=
  (sortBy_perm le items).nodup_iff

structure IsOrder (le : α → α → Bool) : Prop where
  total : ∀ a b, le a b = true ∨ le b a = true
  trans : ∀ a b c, le a b = true → le b c = true → le a c = true

theorem sortBy_sorted {le : α → α → Bool} (hle : IsOrder le) (items : List α) :
    (sortBy le items).Pairwise fun a b => le a b = true := by
  have : Std.Total fun a b => le a b = true := ⟨hle.total⟩
  have : IsTrans α fun a b => le a b = true := ⟨hle.trans⟩
  rw [sortBy_eq_insertionSort]
  exact List.pairwise_insertionSort _ items

theorem sortBy_eq_of_perm {le : α → α → Bool} (hle : IsOrder le)
    (hanti : ∀ a b, le a b = true → le b a = true → a = b) {first second : List α}
    (hperm : first.Perm second) : sortBy le first = sortBy le second := by
  apply List.Perm.eq_of_pairwise (fun a b _ _ => hanti a b) (sortBy_sorted hle first)
    (sortBy_sorted hle second)
  exact (sortBy_perm le first).trans (hperm.trans (sortBy_perm le second).symm)

theorem signature_isOrder : IsOrder fun a b : Signature => decide (a ≤ b) where
  total a b := by simpa using String.le_total a b
  trans a b c hab hbc := by
    simp only [decide_eq_true_eq] at hab hbc ⊢
    exact String.le_trans hab hbc

theorem sortSignatures_strict {signatures : List Signature} (hnodup : signatures.Nodup) :
    (sortSignatures signatures).Pairwise (· < ·) := by
  have hsorted := sortBy_sorted signature_isOrder signatures
  have hdistinct : (sortSignatures signatures).Nodup := nodup_sortBy.mpr hnodup
  refine (hsorted.and hdistinct).imp ?_
  rintro a b ⟨hle, hne⟩
  exact lt_of_le_of_ne (by simpa using hle) hne

theorem CallEdge.le_iff {a b : CallEdge} :
    CallEdge.le a b = true ↔ a.caller < b.caller ∨ a.caller = b.caller ∧ a.callee ≤ b.callee := by
  simp [CallEdge.le]

theorem CallEdge.le_isOrder : IsOrder CallEdge.le where
  total a b := by
    simp only [CallEdge.le_iff]
    rcases lt_trichotomy a.caller b.caller with hlt | heq | hgt
    · exact .inl (.inl hlt)
    · rcases le_total a.callee b.callee with hle | hle
      · exact .inl (.inr ⟨heq, hle⟩)
      · exact .inr (.inr ⟨heq.symm, hle⟩)
    · exact .inr (.inl hgt)
  trans a b c hab hbc := by
    simp only [CallEdge.le_iff] at hab hbc ⊢
    rcases hab with hab | ⟨hab, hab'⟩
    · rcases hbc with hbc | ⟨hbc, -⟩
      · exact .inl (lt_trans hab hbc)
      · exact .inl (hbc ▸ hab)
    · rcases hbc with hbc | ⟨hbc, hbc'⟩
      · exact .inl (hab ▸ hbc)
      · exact .inr ⟨hab.trans hbc, le_trans hab' hbc'⟩

theorem CallEdge.le_antisymm {a b : CallEdge} (hab : CallEdge.le a b = true)
    (hba : CallEdge.le b a = true) : a = b := by
  rw [CallEdge.le_iff] at hab hba
  obtain ⟨caller, callee⟩ := a
  obtain ⟨caller', callee'⟩ := b
  rcases hab with hab | ⟨hab, hab'⟩
  · rcases hba with hba | ⟨hba, -⟩
    · exact absurd hba (lt_asymm hab)
    · exact absurd hba.symm (ne_of_lt hab)
  · rcases hba with hba | ⟨-, hba'⟩
    · exact absurd hab.symm (ne_of_lt hba)
    · simp only [CallEdge.mk.injEq]
      exact ⟨hab, String.le_antisymm hab' hba'⟩

end CallTrace
