import CallTrace.Proofs.Resolution.Receiver

/-!
The meaning of a call, told by the lists of classes, fields, parameters and local variables alone.
Of the parameters and local variables with a name the last one with a type counts, of fields and
classes the first. Resolving a raw call gives exactly this meaning.
-/

namespace CallTrace

def IsFirst (p : α → Prop) (items : List α) (a : α) : Prop :=
  ∃ before after, items = before ++ a :: after ∧ p a ∧ ∀ b ∈ before, ¬p b

def IsLast (p : α → Prop) (items : List α) (a : α) : Prop :=
  ∃ before after, items = before ++ a :: after ∧ p a ∧ ∀ b ∈ after, ¬p b

theorem find?_eq_some_iff_isFirst {p : α → Bool} {items : List α} {a : α} :
    items.find? p = some a ↔ IsFirst (fun b => p b = true) items a := by
  rw [List.find?_eq_some_iff_append, IsFirst]
  constructor
  · intro h
    obtain ⟨ha, before, after, heq, hbefore⟩ := h
    exact ⟨before, after, heq, ha, by simpa using hbefore⟩
  · intro h
    obtain ⟨before, after, heq, ha, hbefore⟩ := h
    exact ⟨ha, before, after, heq, by simpa using hbefore⟩

theorem find?_reverse_eq_some_iff_isLast {p : α → Bool} {items : List α} {a : α} :
    items.reverse.find? p = some a ↔ IsLast (fun b => p b = true) items a := by
  rw [find?_eq_some_iff_isFirst]
  constructor
  · intro h
    obtain ⟨before, after, heq, ha, hbefore⟩ := h
    refine ⟨after.reverse, before.reverse, ?_, ha, by simpa using hbefore⟩
    simpa using congrArg List.reverse heq
  · intro h
    obtain ⟨before, after, rfl, ha, hafter⟩ := h
    exact ⟨after.reverse, before.reverse, by simp, ha, by simpa using hafter⟩

theorem forall_not_iff_eq_none {found : Option α} {p : α → Prop}
    (h : ∀ a, found = some a ↔ p a) : (∀ a, ¬p a) ↔ found = none := by
  simp only [← h, Option.eq_none_iff_forall_ne_some, ne_eq]

def Binding.Gives (name : String) (b : Binding) : Prop :=
  b.name = name ∧ TypeName.base b.declaredType ≠ ""

def MethodDecl.LocalType (m : MethodDecl) (name type : String) : Prop :=
  ∃ b, IsLast (Binding.Gives name) (m.parameters ++ m.locals) b ∧
    TypeName.base b.declaredType = type

def ClassDecl.FieldType (c : ClassDecl) (name type : String) : Prop :=
  ∃ b, IsFirst (Binding.Gives name) c.fields b ∧ TypeName.base b.declaredType = type

namespace Codebase

/-- The class is the first with the simple name or, where no class has it as simple name, with the
qualified name. -/
def Finds (code : Codebase) (name : String) (c : ClassDecl) : Prop :=
  IsFirst (fun d => d.name = name) code.classes c ∨
    (∀ d ∈ code.classes, d.name ≠ name) ∧
      IsFirst (fun d => d.qualifiedName = name) code.classes c

/-- The type of a field of the first class with the name of the enclosing class. -/
def FieldType (code : Codebase) (enclosing name type : String) : Prop :=
  ∃ c, IsFirst (fun d => d.name = enclosing) code.classes c ∧ c.FieldType name type

inductive TypeMeans (code : Codebase) (type : String) : String → Prop where
  | known {c : ClassDecl} (hclass : code.Finds (TypeName.base type) c) : TypeMeans code type c.name
  | foreign (hnone : ∀ c, ¬code.Finds (TypeName.base type) c) :
      TypeMeans code type (TypeName.base type)

inductive ReceiverMeans (code : Codebase) (enclosing : String) (m : MethodDecl) (name : String) :
    Bool → String → Prop where
  | byLocal {type owner : String} (hlocal : m.LocalType name type)
      (howner : code.TypeMeans type owner) : ReceiverMeans code enclosing m name false owner
  | byField {type owner : String} {onThis : Bool}
      (hlocal : onThis = true ∨ ∀ other, ¬m.LocalType name other)
      (hfield : code.FieldType enclosing name type) (howner : code.TypeMeans type owner) :
      ReceiverMeans code enclosing m name onThis owner
  | byClass {c : ClassDecl} (hlocal : ∀ type, ¬m.LocalType name type)
      (hfield : ∀ type, ¬code.FieldType enclosing name type) (hclass : code.Finds name c) :
      ReceiverMeans code enclosing m name false c.name

/-- What a call expression means in a method of the enclosing class. -/
inductive Means (code : Codebase) (enclosing : String) (m : MethodDecl) :
    CallText → Option Resolution → Prop where
  | nothing {onThis : Bool} : Means code enclosing m ⟨"", onThis⟩ none
  | own {text : String} {onThis : Bool} (htext : text ≠ "") (hplain : '.' ∉ text.toList) :
      Means code enclosing m ⟨text, onThis⟩ (some (.resolved enclosing text))
  | onReceiver {name method owner : String} {onThis : Bool} (hmethod : '.' ∉ method.toList)
      (hreceiver : code.ReceiverMeans enclosing m name onThis owner) :
      Means code enclosing m ⟨Signature.join name method, onThis⟩ (some (.resolved owner method))
  | asWritten {name method : String} {onThis : Bool} (hmethod : '.' ∉ method.toList)
      (hreceiver : ∀ owner, ¬code.ReceiverMeans enclosing m name onThis owner) :
      Means code enclosing m ⟨Signature.join name method, onThis⟩
        (some (.heuristic (Signature.join name method)))

end Codebase

theorem Binding.types_iff {name : String} {b : Binding} :
    b.types name = true ↔ b.Gives name := by
  simp [types, Gives]

theorem ClassDecl.fieldType?_eq_some_iff {c : ClassDecl} {name type : String} :
    c.fieldType? name = some type ↔ c.FieldType name type := by
  simp only [fieldType?, Option.map_eq_some_iff, find?_eq_some_iff_isFirst, Binding.types_iff,
    FieldType]

namespace Codebase

variable {code : Codebase} {enclosing name : String} {m : MethodDecl}

theorem findSimple?_eq_some_iff {c : ClassDecl} :
    code.findSimple? name = some c ↔ IsFirst (fun d => d.name = name) code.classes c := by
  simp only [findSimple?, find?_eq_some_iff_isFirst, beq_iff_eq]

theorem findQualified?_eq_some_iff {c : ClassDecl} :
    code.findQualified? name = some c ↔
      IsFirst (fun d => d.qualifiedName = name) code.classes c := by
  simp only [findQualified?, find?_eq_some_iff_isFirst, beq_iff_eq]

theorem find?_eq_some_iff {c : ClassDecl} : code.find? name = some c ↔ code.Finds name c := by
  have hnone : code.findSimple? name = none ↔ ∀ d ∈ code.classes, d.name ≠ name := by
    simp [findSimple?]
  rw [find?, Option.or_eq_some_iff, hnone, findSimple?_eq_some_iff, findQualified?_eq_some_iff,
    Finds]

theorem canonicalClass_eq_iff {type owner : String} :
    code.canonicalClass type = owner ↔ code.TypeMeans type owner := by
  unfold canonicalClass
  constructor
  · intro h
    subst h
    split
    · rename_i c hfound
      exact .known (find?_eq_some_iff.mp hfound)
    · rename_i hnone
      exact .foreign ((forall_not_iff_eq_none fun _ => find?_eq_some_iff).mpr hnone)
  · intro h
    cases h with
    | known hclass => rw [find?_eq_some_iff.mpr hclass]
    | foreign hnone => rw [(forall_not_iff_eq_none fun _ => find?_eq_some_iff).mp hnone]

theorem local?_eq_some_iff (code : Codebase) (enclosing : String) (m : MethodDecl)
    (hname : name ≠ "") {type : String} :
    (code.scope enclosing m).local? name = some type ↔ m.LocalType name type := by
  rw [Scope.local?, scope, ← List.filterMap_reverse, lookup_typed hname]
  simp only [Option.map_eq_some_iff, find?_reverse_eq_some_iff_isLast, Binding.types_iff,
    MethodDecl.LocalType]

theorem field?_eq_some_iff (code : Codebase) (enclosing : String) (m : MethodDecl)
    (hname : name ≠ "") {type : String} :
    (code.scope enclosing m).field? name = some type ↔ code.FieldType enclosing name type := by
  simp only [Scope.field?, scope, fieldsOf, FieldType, ← findSimple?_eq_some_iff]
  cases code.findSimple? enclosing with
  | none => simp
  | some c =>
      simp only [lookup_typed hname, Option.some.injEq, exists_eq_left']
      exact ClassDecl.fieldType?_eq_some_iff

theorem receiver?_onThis_iff (hname : name ≠ "") {owner : String} :
    code.receiver? (code.scope enclosing m) true name = some owner ↔
      code.ReceiverMeans enclosing m name true owner := by
  rw [receiver?, if_pos rfl, Option.map_eq_some_iff]
  constructor
  · intro h
    obtain ⟨type, hfield, howner⟩ := h
    exact .byField (.inl rfl) ((field?_eq_some_iff code enclosing m hname).mp hfield)
      (canonicalClass_eq_iff.mp howner)
  · intro h
    cases h with
    | byField _ hfield howner =>
        exact ⟨_, (field?_eq_some_iff code enclosing m hname).mpr hfield,
          canonicalClass_eq_iff.mpr howner⟩

theorem receiver?_plain_iff (hname : name ≠ "") {owner : String} :
    code.receiver? (code.scope enclosing m) false name = some owner ↔
      code.ReceiverMeans enclosing m name false owner := by
  have hlocals : ∀ type, (code.scope enclosing m).local? name = some type ↔
      m.LocalType name type := fun _ => local?_eq_some_iff code enclosing m hname
  have hfields : ∀ type, (code.scope enclosing m).field? name = some type ↔
      code.FieldType enclosing name type := fun _ => field?_eq_some_iff code enclosing m hname
  rw [receiver?, if_neg Bool.false_ne_true, Scope.lookup?]
  constructor
  · intro h
    cases hlocal : (code.scope enclosing m).local? name with
    | some type =>
        rw [hlocal] at h
        exact .byLocal ((hlocals type).mp hlocal) (canonicalClass_eq_iff.mp (Option.some.inj h))
    | none =>
        have hnoLocal := (forall_not_iff_eq_none hlocals).mpr hlocal
        rw [hlocal, Option.none_or] at h
        cases hfield : (code.scope enclosing m).field? name with
        | some type =>
            rw [hfield] at h
            exact .byField (.inr hnoLocal) ((hfields type).mp hfield)
              (canonicalClass_eq_iff.mp (Option.some.inj h))
        | none =>
            rw [hfield] at h
            obtain ⟨c, hfound, rfl⟩ := Option.map_eq_some_iff.mp h
            exact .byClass hnoLocal ((forall_not_iff_eq_none hfields).mpr hfield)
              (find?_eq_some_iff.mp hfound)
  · intro h
    cases h with
    | byLocal hlocal howner =>
        rw [(hlocals _).mpr hlocal, Option.some_or]
        exact congrArg some (canonicalClass_eq_iff.mpr howner)
    | byField hlocal hfield howner =>
        have hnoLocal := (forall_not_iff_eq_none hlocals).mp (hlocal.resolve_left Bool.false_ne_true)
        rw [hnoLocal, (hfields _).mpr hfield, Option.none_or]
        exact congrArg some (canonicalClass_eq_iff.mpr howner)
    | byClass hlocal hfield hclass =>
        rw [(forall_not_iff_eq_none hlocals).mp hlocal, (forall_not_iff_eq_none hfields).mp hfield,
          Option.none_or]
        exact Option.map_eq_some_iff.mpr ⟨_, find?_eq_some_iff.mpr hclass, rfl⟩

theorem receiver?_eq_some_iff (hname : name ≠ "") {onThis : Bool} {owner : String} :
    code.receiver? (code.scope enclosing m) onThis name = some owner ↔
      code.ReceiverMeans enclosing m name onThis owner := by
  cases onThis with
  | true => exact receiver?_onThis_iff hname
  | false => exact receiver?_plain_iff hname

end Codebase

namespace Codebase

variable {code : Codebase} {raw : String} {call : CallText}

theorem resolve_empty (hcall : CallText.parse raw = call) (htext : call.text = "") (scope : Scope) :
    code.resolve scope raw = none := by
  simp only [resolve, hcall, htext, beq_self_eq_true, if_true]

theorem resolve_plain (hcall : CallText.parse raw = call) (htext : call.text ≠ "")
    (hplain : '.' ∉ call.text.toList) (scope : Scope) :
    code.resolve scope raw = some (.resolved scope.className call.text) := by
  simp only [resolve, hcall, Signature.qualifier_of_not_mem hplain, Signature.method,
    Text.afterLastDot_of_not_mem hplain, beq_iff_eq, htext, if_false, if_true]

theorem resolve_join {name method : String} (hcall : CallText.parse raw = call)
    (htext : call.text = Signature.join name method) (hmethod : '.' ∉ method.toList)
    (scope : Scope) :
    code.resolve scope raw =
      some ((code.receiver? scope call.onThis name).elim (.heuristic (Signature.join name method))
        fun owner => .resolved owner method) := by
  subst hcall
  obtain ⟨hname, hne⟩ := (CallText.bare_parse raw).ne_empty_of_eq_join htext
  have hjoin : Signature.join name method ≠ "" := by
    intro hempty
    simpa [Signature.join] using congrArg String.toList hempty
  simp only [resolve, htext, Signature.qualifier_join name hmethod,
    Signature.method_join name hmethod, beq_iff_eq, hjoin, hne, hname, if_false]
  cases code.receiver? scope (CallText.parse raw).onThis name <;> rfl

theorem means_resolve (code : Codebase) (enclosing : String) (m : MethodDecl) (raw : String) :
    code.Means enclosing m (CallText.parse raw) (code.resolve (code.scope enclosing m) raw) := by
  cases hcall : CallText.parse raw with
  | mk text onThis =>
      by_cases htext : text = ""
      · rw [resolve_empty hcall htext, htext]
        exact .nothing
      · by_cases hdot : '.' ∈ text.toList
        · obtain ⟨name, method, rfl, hmethod⟩ := Signature.exists_join hdot
          obtain ⟨hname, -⟩ := (CallText.bare_parse raw).ne_empty_of_eq_join (congrArg CallText.text hcall)
          rw [resolve_join hcall rfl hmethod]
          cases hreceiver : code.receiver? (code.scope enclosing m) onThis name with
          | some owner => exact .onReceiver hmethod ((receiver?_eq_some_iff hname).mp hreceiver)
          | none =>
              exact .asWritten hmethod
                ((forall_not_iff_eq_none fun _ => receiver?_eq_some_iff hname).mpr hreceiver)
        · rw [resolve_plain hcall htext hdot]
          exact .own htext hdot

/-- Resolving a raw call gives what the call means by the lists of the code, and nothing else. -/
theorem resolve_eq_iff_means (code : Codebase) (enclosing : String) (m : MethodDecl)
    (raw : String) (result : Option Resolution) :
    code.resolve (code.scope enclosing m) raw = result ↔
      code.Means enclosing m (CallText.parse raw) result := by
  constructor
  · intro h
    subst h
    exact means_resolve code enclosing m raw
  · intro h
    generalize hcall : CallText.parse raw = call at h
    cases h with
    | nothing => exact resolve_empty hcall rfl _
    | own htext hplain => exact resolve_plain hcall htext hplain _
    | onReceiver hmethod hreceiver =>
        obtain ⟨hname, -⟩ := (CallText.bare_parse raw).ne_empty_of_eq_join (congrArg CallText.text hcall)
        rw [resolve_join hcall rfl hmethod, (receiver?_eq_some_iff hname).mpr hreceiver]
        rfl
    | asWritten hmethod hreceiver =>
        obtain ⟨hname, -⟩ := (CallText.bare_parse raw).ne_empty_of_eq_join (congrArg CallText.text hcall)
        rw [resolve_join hcall rfl hmethod,
          (forall_not_iff_eq_none fun _ => receiver?_eq_some_iff hname).mp hreceiver]
        rfl

end Codebase

end CallTrace
