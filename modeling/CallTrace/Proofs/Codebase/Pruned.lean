import CallTrace.Proofs.Build.Content
import CallTrace.Proofs.Resolution.Lookup

/-!
Code without the classes and methods that have a blank name. A lookup that finds a class with a name
finds the same class in it; so if all names that calls ask for do so, every call keeps its meaning.
-/

namespace CallTrace

theorem find?_filter_eq {items : List α} {p q : α → Bool}
    (h : ∀ a ∈ items.find? q, p a = true) : (items.filter p).find? q = items.find? q := by
  induction items with
  | nil => rfl
  | cons a rest ih =>
      rw [List.find?_cons] at h ⊢
      cases hq : q a with
      | true =>
          have hp : p a = true := h a (by simp [hq])
          rw [List.filter_cons_of_pos hp, List.find?_cons_of_pos hq]
      | false =>
          have hrest := ih (by simpa [hq] using h)
          cases hp : p a with
          | true => rw [List.filter_cons_of_pos hp, List.find?_cons_of_neg (by simp [hq]), hrest]
          | false => rw [List.filter_cons_of_neg (by simp [hp]), hrest]

def ClassDecl.pruned (c : ClassDecl) : ClassDecl :=
  { c with methods := c.methods.filter fun m => !Text.isBlank m.name }

namespace Codebase

/-- The code without the classes and methods that have a blank name. -/
def pruned (code : Codebase) : Codebase where
  classes := (code.classes.filter fun c => !Text.isBlank c.name).map ClassDecl.pruned

variable {code : Codebase}

def FindsNamed (code : Codebase) (name : String) : Prop :=
  ∀ d ∈ code.find? name, Text.isBlank d.name = false

instance (code : Codebase) (name : String) : Decidable (code.FindsNamed name) :=
  inferInstanceAs (Decidable (∀ d ∈ code.find? name, _))

theorem findsNamed_of_mem {c : ClassDecl} (hc : c ∈ code.classes)
    (hname : Text.isBlank c.name = false) : code.FindsNamed c.name := by
  have hsome : (code.findSimple? c.name).isSome = true := by
    rw [findSimple?, List.find?_isSome]
    exact ⟨c, hc, beq_self_eq_true c.name⟩
  intro d hd
  rw [find?, Option.or_of_isSome hsome] at hd
  have hsame : d.name = c.name := by simpa using List.find?_some hd
  rw [hsame]
  exact hname

theorem mem_of_find? {name : String} {d : ClassDecl} (h : code.find? name = some d) :
    d ∈ code.classes := by
  rcases Option.or_eq_some_iff.mp h with hsimple | ⟨-, hqualified⟩
  · exact List.mem_of_find?_eq_some hsimple
  · exact List.mem_of_find?_eq_some hqualified

theorem find?_classes_pruned {key : ClassDecl → String} (hkey : ∀ c, key c.pruned = key c)
    {name : String}
    (h : ∀ d ∈ code.classes.find? (fun c => key c == name), Text.isBlank d.name = false) :
    code.pruned.classes.find? (fun c => key c == name) =
      (code.classes.find? fun c => key c == name).map ClassDecl.pruned := by
  rw [pruned, List.find?_map]
  simp only [Function.comp_def, hkey]
  rw [find?_filter_eq]
  intro d hd
  rw [h d hd]
  rfl

theorem FindsNamed.findSimple?_pruned {name : String} (h : code.FindsNamed name) :
    code.pruned.findSimple? name = (code.findSimple? name).map ClassDecl.pruned := by
  refine find?_classes_pruned (fun _ => rfl) fun d hd => h d ?_
  exact Option.or_eq_some_iff.mpr (.inl hd)

theorem FindsNamed.find?_pruned {name : String} (h : code.FindsNamed name) :
    code.pruned.find? name = (code.find? name).map ClassDecl.pruned := by
  rw [find?, h.findSimple?_pruned, find?, Option.map_or]
  cases hsimple : code.findSimple? name with
  | some d => rfl
  | none =>
      refine find?_classes_pruned (fun _ => rfl) fun d hd => h d ?_
      exact Option.or_eq_some_iff.mpr (.inr ⟨hsimple, hd⟩)

theorem FindsNamed.foundName?_pruned {name : String} (h : code.FindsNamed name) :
    code.pruned.foundName? name = code.foundName? name := by
  rw [foundName?, h.find?_pruned, Option.map_map]
  rfl

def askedBy (code : Codebase) (c : ClassDecl) (m : MethodDecl) : List String :=
  (m.calls.map fun raw => Signature.qualifier (CallText.parse raw).text).filter (· != "") ++
    (code.scope c.name m).types.map TypeName.base

def AsksNamed (code : Codebase) : Prop :=
  ∀ decl ∈ code.declaredMethods, ∀ name ∈ code.askedBy decl.1 decl.2, code.FindsNamed name

instance (code : Codebase) : Decidable code.AsksNamed :=
  inferInstanceAs (Decidable (∀ decl ∈ code.declaredMethods, _))

theorem declaredMethods_pruned (code : Codebase) :
    code.pruned.declaredMethods = code.declaredMethods.map fun decl => (decl.1.pruned, decl.2) := by
  have hclasses : code.pruned.classes.filter (fun c => !Text.isBlank c.name) =
      code.pruned.classes := by
    rw [List.filter_eq_self]
    intro d hd
    obtain ⟨c, hc, rfl⟩ := List.mem_map.mp hd
    exact (List.mem_filter.mp hc).2
  rw [declaredMethods, hclasses, declaredMethods, pruned, List.flatMap_map, List.map_flatMap]
  simp only [ClassDecl.pruned, List.filter_filter, Bool.and_self, List.map_map]
  rfl

section AsksNamed

variable (h : code.AsksNamed) {c : ClassDecl} {m : MethodDecl} (hdeclared : code.Declares c m)

include hdeclared

theorem Declares.scope_pruned : code.pruned.scope c.name m = code.scope c.name m := by
  have hnamed := findsNamed_of_mem hdeclared.mem_classes hdeclared.class_named
  have hfields : code.pruned.fieldsOf c.name = code.fieldsOf c.name := by
    rw [fieldsOf_eq_getD, fieldsOf_eq_getD, hnamed.findSimple?_pruned, Option.map_map]
    rfl
  rw [scope, scope, hfields]

include h

theorem AsksNamed.receiver {raw : String} (hraw : raw ∈ m.calls)
    (hname : Signature.qualifier (CallText.parse raw).text ≠ "") :
    code.FindsNamed (Signature.qualifier (CallText.parse raw).text) := by
  refine h (c, m) (mem_declaredMethods.mpr hdeclared) _ (List.mem_append_left _ ?_)
  exact List.mem_filter.mpr ⟨List.mem_map_of_mem hraw, by simpa using hname⟩

theorem AsksNamed.type {type : String} (htype : type ∈ (code.scope c.name m).types) :
    code.FindsNamed (TypeName.base type) :=
  h (c, m) (mem_declaredMethods.mpr hdeclared) _
    (List.mem_append_right _ (List.mem_map_of_mem htype))

theorem AsksNamed.resolve_pruned {raw : String} (hraw : raw ∈ m.calls) :
    code.pruned.resolve (code.scope c.name m) raw = code.resolve (code.scope c.name m) raw := by
  refine resolve_congr ?_ fun hname => (h.receiver hdeclared hraw hname).foundName?_pruned
  intro type htype
  rw [canonicalClass_eq_getD, canonicalClass_eq_getD, (h.type hdeclared htype).foundName?_pruned]

/-- The class that a call finds is found again by its name, or is not in the code. -/
theorem AsksNamed.owner {raw owner method : String} (hraw : raw ∈ m.calls)
    (hresolve : code.resolve (code.scope c.name m) raw = some (.resolved owner method)) :
    code.FindsNamed owner := by
  have hfound : ∀ name, code.FindsNamed name → code.foundName? name = some owner →
      code.FindsNamed owner := by
    intro name hname hfound
    obtain ⟨d, hd, rfl⟩ := Option.map_eq_some_iff.mp hfound
    exact findsNamed_of_mem (mem_of_find? hd) (hname d hd)
  obtain ⟨-, -, rfl | ⟨type, htype, howner⟩ | ⟨hname, howner⟩⟩ := resolve_eq_resolved hresolve
  · exact findsNamed_of_mem hdeclared.mem_classes hdeclared.class_named
  · have hbase := h.type hdeclared htype
    rw [canonicalClass_eq_getD] at howner
    cases hclass : code.foundName? (TypeName.base type) with
    | some name =>
        rw [hclass] at howner
        exact hfound _ hbase (hclass.trans (congrArg some howner))
    | none =>
        rw [hclass] at howner
        exact howner ▸ hbase
  · exact hfound _ (h.receiver hdeclared hraw hname) howner

end AsksNamed

theorem AsksNamed.rawCalls_pruned (h : code.AsksNamed) : code.pruned.rawCalls = code.rawCalls := by
  rw [rawCalls, rawCalls, declaredMethods_pruned, List.flatMap_map]
  apply List.flatMap_congr
  rintro ⟨c, m⟩ hdecl
  have hdeclared := mem_declaredMethods.mp hdecl
  apply List.map_congr_left
  intro raw hraw
  have hscope : code.pruned.scope c.pruned.name m = code.scope c.name m := hdeclared.scope_pruned
  rw [hscope, h.resolve_pruned hdeclared hraw]
  rfl

theorem AsksNamed.callSites_pruned (h : code.AsksNamed) :
    code.pruned.callSites = code.callSites := by
  rw [callSites, callSites, h.rawCalls_pruned]

end Codebase

end CallTrace
