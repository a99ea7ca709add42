import CallTrace.Proofs.Sort
import Mathlib.Data.List.Induction

/-!
The first item of each key. What is kept of a list stands in its order, once for each key, and is
what a search from the front finds. Where only first items count, a list can be replaced by its own
first items, also as a part of another list.
-/

namespace CallTrace

theorem nodup_eraseDups [BEq α] [LawfulBEq α] (items : List α) : items.eraseDups.Nodup := by
  match items with
  | [] => exact List.nodup_nil
  | a :: rest =>
      rw [List.eraseDups_cons, List.nodup_cons]
      refine ⟨?_, nodup_eraseDups (rest.filter fun b => !b == a)⟩
      simp [List.mem_eraseDups]
termination_by items.length
decreasing_by
  rw [List.length_cons]
  exact Nat.lt_succ_of_le (List.length_filter_le _ _)

theorem length_eraseDups_eq [BEq α] [LawfulBEq α] {items distinct : List α}
    (hdistinct : distinct.Nodup) (hmem : ∀ a, a ∈ distinct ↔ a ∈ items) :
    distinct.length = items.eraseDups.length := by
  have hperm : distinct.Perm items.eraseDups :=
    (List.perm_ext_iff_of_nodup hdistinct (nodup_eraseDups items)).mpr fun a => by
      rw [hmem, List.mem_eraseDups]
  exact hperm.length_eq

/-- The first item of each key, in order. -/
def firstsBy (key : α → String) (items : List α) : List α :=
  items.eraseDupsBy fun a b => key a == key b

def addNew (key : α → String) (kept : List α) (a : α) : List α :=
  if kept.any fun b => key b == key a then kept else kept ++ [a]

section Firsts

variable {key : α → String}

theorem addNew_eq (key : α → String) (kept : List α) (a : α) :
    addNew key kept a = if key a ∈ kept.map key then kept else kept ++ [a] := by
  have hseen : (kept.any fun b => key b == key a) = true ↔ key a ∈ kept.map key := by
    simp
  simp only [addNew, hseen]

theorem foldl_addNew_eq_loop (seen added : List α) :
    added.foldl (addNew key) seen.reverse =
      List.eraseDupsBy.loop (fun a b => key a == key b) added seen := by
  induction added generalizing seen with
  | nil => rfl
  | cons a rest ih =>
      have hseen : (seen.reverse.any fun b => key b == key a) =
          seen.any fun b => key a == key b := by
        rw [List.any_reverse]
        simp only [BEq.comm]
      rw [List.foldl_cons, List.eraseDupsBy.loop, addNew, hseen]
      cases seen.any fun b => key a == key b with
      | true => exact ih seen
      | false =>
          rw [← ih (a :: seen), List.reverse_cons]
          rfl

theorem firstsBy_eq_foldl (key : α → String) (items : List α) :
    firstsBy key items = items.foldl (addNew key) [] :=
  (foldl_addNew_eq_loop [] items).symm

theorem firstsBy_append (key : α → String) (items added : List α) :
    firstsBy key (items ++ added) = added.foldl (addNew key) (firstsBy key items) := by
  rw [firstsBy_eq_foldl, List.foldl_append, ← firstsBy_eq_foldl]

theorem map_firstsBy (key : α → String) (items : List α) :
    (firstsBy key items).map key = (items.map key).eraseDups := by
  induction items using List.reverseRecOn with
  | nil => rfl
  | append_singleton items a ih =>
      rw [firstsBy_append, List.foldl_cons, List.foldl_nil, addNew_eq, List.map_append,
        List.map_singleton, eraseDups_concat]
      simp only [ih, List.mem_eraseDups]
      split
      · exact ih
      · rw [List.map_append, ih, List.map_singleton]

theorem mem_map_firstsBy {items : List α} {k : String} :
    k ∈ (firstsBy key items).map key ↔ k ∈ items.map key := by
  rw [map_firstsBy, List.mem_eraseDups]

theorem nodup_map_firstsBy (key : α → String) (items : List α) :
    ((firstsBy key items).map key).Nodup := by
  rw [map_firstsBy]
  exact nodup_eraseDups _

theorem firstsBy_concat (key : α → String) (items : List α) (a : α) :
    firstsBy key (items ++ [a]) =
      if key a ∈ items.map key then firstsBy key items else firstsBy key items ++ [a] := by
  rw [firstsBy_append, List.foldl_cons, List.foldl_nil, addNew_eq]
  simp only [mem_map_firstsBy]

theorem firstsBy_sublist (key : α → String) (items : List α) :
    (firstsBy key items).Sublist items := by
  induction items using List.reverseRecOn with
  | nil => exact .slnil
  | append_singleton items a ih =>
      rw [firstsBy_concat]
      split
      · exact ih.trans (List.sublist_append_left _ _)
      · exact ih.append_right [a]

theorem find?_firstsBy (key : α → String) (items : List α) (k : String) :
    (firstsBy key items).find? (fun a => key a == k) = items.find? fun a => key a == k := by
  induction items using List.reverseRecOn with
  | nil => rfl
  | append_singleton items a ih =>
      rw [firstsBy_concat, List.find?_append]
      split
      · rename_i hseen
        cases hfound : items.find? fun b => key b == k with
        | some b => rw [ih, hfound, Option.some_or]
        | none =>
            have hother : key a ≠ k := by
              rintro rfl
              obtain ⟨b, hb, hkey⟩ := List.mem_map.mp hseen
              simpa [hkey] using List.find?_eq_none.mp hfound b hb
            rw [ih, hfound, List.find?_singleton, beq_false_of_ne hother]
            rfl
      · rw [List.find?_append, ih]

theorem mem_firstsBy {items : List α} {a : α} :
    a ∈ firstsBy key items ↔ items.find? (fun b => key b == key a) = some a := by
  rw [← find?_firstsBy, find?_eq_some_iff_of_nodup (nodup_map_firstsBy key items)]
  simp

theorem mem_map_foldl_addNew {kept added : List α} {k : String} :
    k ∈ (added.foldl (addNew key) kept).map key ↔ k ∈ kept.map key ∨ k ∈ added.map key := by
  induction added generalizing kept with
  | nil => simp
  | cons a rest ih =>
      have hstep : k ∈ (addNew key kept a).map key ↔ k ∈ kept.map key ∨ k = key a := by
        rw [addNew_eq]
        split
        · rename_i hseen
          refine (or_iff_left_of_imp ?_).symm
          rintro rfl
          exact hseen
        · simp
      rw [List.foldl_cons, ih, hstep, List.map_cons, List.mem_cons, or_assoc]

theorem foldl_addNew_firstsBy (kept items : List α) :
    (firstsBy key items).foldl (addNew key) kept = items.foldl (addNew key) kept := by
  induction items using List.reverseRecOn with
  | nil => rfl
  | append_singleton items a ih =>
      rw [firstsBy_concat, List.foldl_concat]
      split
      · rename_i hseen
        rw [ih, addNew_eq, if_pos (mem_map_foldl_addNew.mpr (.inr hseen))]
      · rw [List.foldl_concat, ih]

theorem firstsBy_firstsBy (key : α → String) (items : List α) :
    firstsBy key (firstsBy key items) = firstsBy key items := by
  rw [firstsBy_eq_foldl, foldl_addNew_firstsBy, ← firstsBy_eq_foldl]

theorem firstsBy_append_congr {items items' added added' : List α}
    (hitems : firstsBy key items = firstsBy key items')
    (hadded : firstsBy key added = firstsBy key added') :
    firstsBy key (items ++ added) = firstsBy key (items' ++ added') := by
  rw [firstsBy_append, firstsBy_append, hitems, ← foldl_addNew_firstsBy, hadded,
    foldl_addNew_firstsBy]

/-- An item whose key came before counts for nothing. -/
theorem firstsBy_skip {before : List α} {a : α} (h : key a ∈ before.map key) (after : List α) :
    firstsBy key (before ++ a :: after) = firstsBy key (before ++ after) := by
  rw [firstsBy_append, firstsBy_append, List.foldl_cons, addNew_eq,
    if_pos (mem_map_firstsBy.mpr h)]

theorem eraseDups_append_congr {items items' added added' : List String}
    (hitems : items.eraseDups = items'.eraseDups) (hadded : added.eraseDups = added'.eraseDups) :
    (items ++ added).eraseDups = (items' ++ added').eraseDups :=
  @firstsBy_append_congr _ id items items' added added' hitems hadded

/-- Repetitions in the parts of a list are repetitions in the list. -/
theorem eraseDups_flatMap_eraseDups (parts : α → List String) (items : List α) :
    (items.flatMap fun a => (parts a).eraseDups).eraseDups = (items.flatMap parts).eraseDups := by
  have hkept : ∀ part : List String, part.eraseDups.eraseDups = part.eraseDups :=
    fun part => firstsBy_firstsBy id part
  induction items with
  | nil => rfl
  | cons a rest ih =>
      rw [List.flatMap_cons, List.flatMap_cons]
      exact eraseDups_append_congr (hkept (parts a)) ih

end Firsts

end CallTrace
