import CallTrace.Proofs.Build.Content
import CallTrace.Proofs.Hierarchy.Content
import CallTrace.Proofs.Resolution.Lookup
import Mathlib.Data.List.Perm.Basic

/-!
Code in another order: the classes, the methods of each class and the calls of each method are
permuted. Where no two classes share a name, lookups find the same class in either order, so every
call means the same, and the calls of the code are a permutation.
-/

namespace CallTrace

def Reordered (R : α → β → Prop) (items : List α) (others : List β) : Prop :=
  ∃ matched, List.Forall₂ R items matched ∧ matched.Perm others

namespace Reordered

variable {R : α → β → Prop} {S : γ → δ → Prop} {items : List α} {others : List β}

theorem nil : Reordered R [] [] :=
  ⟨[], .nil, .nil⟩

theorem append {more : List α} {moreOthers : List β} (hfirst : Reordered R items others)
    (hsecond : Reordered R more moreOthers) :
    Reordered R (items ++ more) (others ++ moreOthers) := by
  obtain ⟨matched, hmatched, hperm⟩ := hfirst
  obtain ⟨rest, hrest, hpermRest⟩ := hsecond
  exact ⟨matched ++ rest, List.rel_append hmatched hrest, hperm.append hpermRest⟩

theorem trans_perm {others' : List β} (h : Reordered R items others) (hperm : others.Perm others') :
    Reordered R items others' := by
  obtain ⟨matched, hmatched, hothers⟩ := h
  exact ⟨matched, hmatched, hothers.trans hperm⟩

theorem symm {R : α → α → Prop} (hsymm : ∀ a b, R a b → R b a) {items others : List α}
    (h : Reordered R items others) : Reordered R others items := by
  obtain ⟨matched, hmatched, hperm⟩ := h
  have hback : List.Forall₂ R matched items := hmatched.flip.imp fun a b => hsymm b a
  exact List.perm_comp_forall₂ hperm.symm hback

theorem exists_of_mem (h : Reordered R items others) {a : α} (ha : a ∈ items) :
    ∃ b ∈ others, R a b := by
  obtain ⟨matched, hmatched, hperm⟩ := h
  have hmatch : ∃ b ∈ matched, R a b := by
    clear hperm
    induction hmatched with
    | nil => contradiction
    | cons hab _ ih =>
        rcases List.mem_cons.mp ha with rfl | ha
        · exact ⟨_, List.mem_cons_self, hab⟩
        · obtain ⟨b, hb, hrel⟩ := ih ha
          exact ⟨b, List.mem_cons_of_mem _ hb, hrel⟩
  obtain ⟨b, hb, hab⟩ := hmatch
  exact ⟨b, hperm.mem_iff.mp hb, hab⟩

theorem exists_iff {R : α → α → Prop} (hsymm : ∀ a b, R a b → R b a) {items others : List α}
    (h : Reordered R items others) {P : α → Prop} (hstep : ∀ a b, R a b → P a → P b) :
    (∃ a ∈ items, P a) ↔ ∃ b ∈ others, P b := by
  constructor
  · rintro ⟨a, ha, hPa⟩
    obtain ⟨b, hb, hab⟩ := h.exists_of_mem ha
    exact ⟨b, hb, hstep a b hab hPa⟩
  · rintro ⟨b, hb, hPb⟩
    obtain ⟨a, ha, hba⟩ := (h.symm hsymm).exists_of_mem hb
    exact ⟨a, ha, hstep b a hba hPb⟩

theorem filter {p : α → Bool} {q : β → Bool} (h : Reordered R items others)
    (hkept : ∀ a b, R a b → (p a = true ↔ q b = true)) :
    Reordered R (items.filter p) (others.filter q) := by
  obtain ⟨matched, hmatched, hperm⟩ := h
  exact ⟨matched.filter q, List.rel_filter (fun {a b} => hkept a b) hmatched, hperm.filter q⟩

theorem map {f : α → γ} {g : β → δ} (h : Reordered R items others)
    (hstep : ∀ a b, R a b → S (f a) (g b)) : Reordered S (items.map f) (others.map g) := by
  obtain ⟨matched, hmatched, hperm⟩ := h
  exact ⟨matched.map g, List.rel_map (fun {a b} => hstep a b) hmatched, hperm.map g⟩

theorem flatMap {f : α → List γ} {g : β → List δ} (h : Reordered R items others)
    (hstep : ∀ a b, R a b → Reordered S (f a) (g b)) :
    Reordered S (items.flatMap f) (others.flatMap g) := by
  obtain ⟨matched, hmatched, hperm⟩ := h
  have hall : Reordered S (items.flatMap f) (matched.flatMap g) := by
    clear hperm
    induction hmatched with
    | nil => exact .nil
    | cons hab _ ih => exact (hstep _ _ hab).append ih
  exact hall.trans_perm (hperm.flatMap_right g)

theorem perm {items others : List α} (h : Reordered Eq items others) : items.Perm others := by
  obtain ⟨matched, hmatched, hperm⟩ := h
  rw [List.forall₂_eq_eq_eq] at hmatched
  exact hmatched ▸ hperm

end Reordered

theorem optionRel_or {R : α → β → Prop} {a a' : Option α} {b b' : Option β}
    (hfirst : Option.Rel R a b) (hsecond : Option.Rel R a' b') :
    Option.Rel R (a.or a') (b.or b') := by
  cases hfirst with
  | some hab => exact .some hab
  | none => exact hsecond

theorem optionRel_map_eq {R : α → β → Prop} {f : α → γ} {g : β → γ}
    (hstep : ∀ a b, R a b → f a = g b) {a : Option α} {b : Option β} (h : Option.Rel R a b) :
    a.map f = b.map g := by
  cases h with
  | some hab => exact congrArg some (hstep _ _ hab)
  | none => rfl

theorem optionRel_exists_iff {R : α → β → Prop} {P : α → Prop} {Q : β → Prop}
    (hstep : ∀ a b, R a b → (P a ↔ Q b)) {a : Option α} {b : Option β} (h : Option.Rel R a b) :
    (∃ x ∈ a, P x) ↔ ∃ y ∈ b, Q y := by
  cases h with
  | some hab => simpa using hstep _ _ hab
  | none => simp

structure MethodDecl.Reorders (m k : MethodDecl) : Prop where
  same : k = { m with calls := k.calls }
  calls : m.calls.Perm k.calls

structure ClassDecl.Reorders (c d : ClassDecl) : Prop where
  same : d = { c with methods := d.methods }
  methods : Reordered MethodDecl.Reorders c.methods d.methods

/-- The code with its classes in another order, and their methods and calls. -/
def Codebase.Reorders (code other : Codebase) : Prop :=
  Reordered ClassDecl.Reorders code.classes other.classes

/-- No two classes share a simple name, nor a qualified one. -/
structure Codebase.Distinct (code : Codebase) : Prop where
  names : (code.classes.map fun c => c.name).Nodup
  qualifiedNames : (code.classes.map fun c => c.qualifiedName).Nodup

namespace MethodDecl.Reorders

variable {m k : MethodDecl}

theorem symm (h : m.Reorders k) : k.Reorders m where
  same := by rw [h.same]
  calls := h.calls.symm

theorem name_eq (h : m.Reorders k) : m.name = k.name :=
  (congrArg MethodDecl.name h.same).symm

theorem bindings_eq (h : m.Reorders k) : m.parameters ++ m.locals = k.parameters ++ k.locals := by
  rw [h.same]

end MethodDecl.Reorders

namespace ClassDecl.Reorders

variable {c d : ClassDecl}

theorem symm (h : c.Reorders d) : d.Reorders c where
  same := by rw [h.same]
  methods := h.methods.symm fun _ _ => MethodDecl.Reorders.symm

theorem name_eq (h : c.Reorders d) : c.name = d.name :=
  (congrArg ClassDecl.name h.same).symm

theorem qualifiedName_eq (h : c.Reorders d) : c.qualifiedName = d.qualifiedName := by
  rw [h.same]
  rfl

theorem fields_eq (h : c.Reorders d) : c.fields = d.fields :=
  (congrArg ClassDecl.fields h.same).symm

theorem isInterface_eq (h : c.Reorders d) : c.isInterface = d.isInterface :=
  (congrArg ClassDecl.isInterface h.same).symm

theorem implements_iff (h : c.Reorders d) {key : String} :
    c.Implements key ↔ d.Implements key := by
  rw [h.same]
  rfl

theorem declares_of_declares (h : c.Reorders d) {name : String} (hname : c.declares name = true) :
    d.declares name = true := by
  obtain ⟨m, hm, rfl⟩ := declares_iff.mp hname
  obtain ⟨k, hk, hmk⟩ := h.methods.exists_of_mem hm
  exact declares_iff.mpr ⟨k, hk, hmk.name_eq.symm⟩

theorem declares_eq (h : c.Reorders d) (name : String) : c.declares name = d.declares name :=
  Bool.eq_iff_iff.mpr ⟨h.declares_of_declares, h.symm.declares_of_declares⟩

end ClassDecl.Reorders

namespace Codebase

variable {code other : Codebase}

theorem Reorders.symm (h : code.Reorders other) : other.Reorders code :=
  Reordered.symm (fun _ _ => ClassDecl.Reorders.symm) h

theorem Reorders.distinct (h : code.Reorders other) (hcode : code.Distinct) : other.Distinct where
  names := by
    have hperm := (Reordered.map (S := Eq) h fun _ _ hcd => hcd.name_eq).perm
    exact hperm.nodup_iff.mp hcode.names
  qualifiedNames := by
    have hperm := (Reordered.map (S := Eq) h fun _ _ hcd => hcd.qualifiedName_eq).perm
    exact hperm.nodup_iff.mp hcode.qualifiedNames

theorem Reorders.exists_found (h : code.Reorders other) {key : ClassDecl → String}
    (hkey : ∀ c d, c.Reorders d → key c = key d) (hkeys : (other.classes.map key).Nodup)
    {k : String} {c : ClassDecl} (hc : code.classes.find? (fun c => key c == k) = some c) :
    ∃ d, other.classes.find? (fun d => key d == k) = some d ∧ c.Reorders d := by
  obtain ⟨d, hd, hcd⟩ := h.exists_of_mem (List.mem_of_find?_eq_some hc)
  have hk : key c = k := by simpa using List.find?_some hc
  exact ⟨d, (find?_eq_some_iff_of_nodup hkeys).mpr ⟨hd, (hkey c d hcd).symm.trans hk⟩, hcd⟩

theorem Reorders.found_rel (h : code.Reorders other) {key : ClassDecl → String}
    (hkey : ∀ c d, c.Reorders d → key c = key d) (hkeys : (code.classes.map key).Nodup)
    (hothers : (other.classes.map key).Nodup) (k : String) :
    Option.Rel ClassDecl.Reorders (code.classes.find? fun c => key c == k)
      (other.classes.find? fun d => key d == k) := by
  cases hc : code.classes.find? fun c => key c == k with
  | some c =>
      obtain ⟨d, hd, hcd⟩ := h.exists_found hkey hothers hc
      rw [hd]
      exact .some hcd
  | none =>
      cases hd : other.classes.find? fun d => key d == k with
      | none => exact .none
      | some d =>
          obtain ⟨c, hfound, -⟩ := h.symm.exists_found hkey hkeys hd
          rw [hc] at hfound
          contradiction

section Distinct

variable (h : code.Reorders other) (hcode : code.Distinct)

include h hcode

theorem Reorders.findSimple?_rel (name : String) :
    Option.Rel ClassDecl.Reorders (code.findSimple? name) (other.findSimple? name) :=
  h.found_rel (fun _ _ => ClassDecl.Reorders.name_eq) hcode.names (h.distinct hcode).names name

theorem Reorders.find?_rel (name : String) :
    Option.Rel ClassDecl.Reorders (code.find? name) (other.find? name) := by
  have hqualified := h.found_rel (fun _ _ => ClassDecl.Reorders.qualifiedName_eq)
    hcode.qualifiedNames (h.distinct hcode).qualifiedNames name
  exact optionRel_or (h.findSimple?_rel hcode name) hqualified

theorem Reorders.scope_eq {m k : MethodDecl} (hmk : m.Reorders k) (className : String) :
    other.scope className k = code.scope className m := by
  have hfields : code.fieldsOf className = other.fieldsOf className := by
    rw [fieldsOf_eq_getD, fieldsOf_eq_getD]
    refine congrArg (Option.getD · []) (optionRel_map_eq ?_ (h.findSimple?_rel hcode className))
    intro c d hcd
    rw [hcd.fields_eq]
  simp only [scope, hfields, hmk.bindings_eq]

theorem Reorders.foundName?_eq (name : String) : other.foundName? name = code.foundName? name := by
  symm
  exact optionRel_map_eq (fun c d hcd => hcd.name_eq) (h.find?_rel hcode name)

theorem Reorders.resolve_eq (scope : Scope) (raw : String) :
    other.resolve scope raw = code.resolve scope raw := by
  refine resolve_congr ?_ fun _ => h.foundName?_eq hcode _
  intro type _
  rw [canonicalClass_eq_getD, canonicalClass_eq_getD, h.foundName?_eq hcode]

theorem Reorders.callsOf_perm {c d : ClassDecl} {m k : MethodDecl} (hcd : c.Reorders d)
    (hmk : m.Reorders k) : (code.callsOf c m).Perm (other.callsOf d k) := by
  simp only [callsOf, ← hcd.name_eq, ← hmk.name_eq, h.scope_eq hcode hmk, h.resolve_eq hcode]
  exact hmk.calls.map _

omit hcode in
theorem Reorders.declaredMethods :
    Reordered (fun first second => first.1.Reorders second.1 ∧ first.2.Reorders second.2)
      code.declaredMethods other.declaredMethods := by
  refine (Reordered.filter h fun c d hcd => ?_).flatMap fun c d hcd =>
    (hcd.methods.filter fun m k hmk => ?_).map fun m k hmk => ⟨hcd, hmk⟩
  · rw [hcd.name_eq]
  · rw [hmk.name_eq]

theorem Reorders.rawCalls_perm : code.rawCalls.Perm other.rawCalls := by
  apply Reordered.perm
  refine (Reorders.declaredMethods h).flatMap ?_
  rintro ⟨c, m⟩ ⟨d, k⟩ ⟨hcd, hmk⟩
  exact ⟨_, List.forall₂_refl _, h.callsOf_perm hcode hcd hmk⟩

theorem Reorders.callSites_perm : code.callSites.Perm other.callSites :=
  (h.rawCalls_perm hcode).filterMap _

theorem Reorders.calls_iff {caller : Signature} {resolution : Resolution} :
    code.Calls caller resolution ↔ other.Calls caller resolution := by
  have hmem := (h.callSites_perm hcode).mem_iff (a := ⟨caller, resolution⟩)
  rwa [mem_callSites, mem_callSites] at hmem

end Distinct

end Codebase

end CallTrace
