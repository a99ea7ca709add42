import CallTrace.Proofs.Build.Content
import CallTrace.Proofs.Text.Dotted

/-!
Calls on fields. Where nothing else in a method has the name of a receiver, the receiver is typed by
the fields of the first class with the simple name of the class that the method stands in.
-/

namespace CallTrace

theorem Binding.typed?_eq_some_iff {b : Binding} {entry : String × String} :
    b.typed? = some entry ↔
      b.name ≠ "" ∧ TypeName.base b.declaredType ≠ "" ∧
        entry = (b.name, TypeName.base b.declaredType) := by
  by_cases hempty : b.name = "" ∨ TypeName.base b.declaredType = ""
  · rcases hempty with h | h <;> simp [typed?, h]
  · obtain ⟨hname, htype⟩ := not_or.mp hempty
    simp [typed?, hname, htype, eq_comm (a := entry)]

def Binding.types (name : String) (b : Binding) : Bool :=
  b.name == name && TypeName.base b.declaredType != ""

def ClassDecl.fieldType? (c : ClassDecl) (name : String) : Option String :=
  (c.fields.find? (Binding.types name)).map fun f => TypeName.base f.declaredType

theorem lookup_typed {name : String} (hname : name ≠ "") (bindings : List Binding) :
    (bindings.filterMap Binding.typed?).lookup name =
      (bindings.find? (Binding.types name)).map fun b => TypeName.base b.declaredType := by
  induction bindings with
  | nil => rfl
  | cons b rest ih =>
      by_cases htypes : Binding.types name b = true
      · have htyped : b.typed? = some (name, TypeName.base b.declaredType) := by
          rw [Binding.types, Bool.and_eq_true, beq_iff_eq, bne_iff_ne] at htypes
          obtain ⟨rfl, htype⟩ := htypes
          exact Binding.typed?_eq_some_iff.mpr ⟨hname, htype, rfl⟩
        rw [List.filterMap_cons_some htyped, List.find?_cons_of_pos htypes, lookup_cons_eq,
          if_pos rfl, Option.map_some]
      · rw [List.find?_cons_of_neg htypes, ← ih]
        cases htyped : b.typed? with
        | none => rw [List.filterMap_cons_none htyped]
        | some entry =>
            obtain ⟨-, htype, rfl⟩ := Binding.typed?_eq_some_iff.mp htyped
            have hother : name ≠ b.name := by
              rintro rfl
              simp [Binding.types, htype] at htypes
            rw [List.filterMap_cons_some htyped, lookup_cons_eq, if_neg hother]

namespace Codebase

variable {code : Codebase} {c d e : ClassDecl} {m : MethodDecl} {raw receiver method : String}

theorem findSimple?_of_mem (hc : c ∈ code.classes) : ∃ d, code.findSimple? c.name = some d := by
  rw [← Option.isSome_iff_exists, findSimple?, List.find?_isSome]
  exact ⟨c, hc, beq_self_eq_true c.name⟩

theorem find?_eq_none_of_plain (hplain : '.' ∉ receiver.toList)
    (hclass : ∀ d ∈ code.classes, d.name ≠ receiver) : code.find? receiver = none := by
  rw [find?, Option.or_eq_none_iff, findSimple?, findQualified?, List.find?_eq_none,
    List.find?_eq_none]
  constructor
  · intro d hd
    simpa using hclass d hd
  · intro d hd
    rw [beq_iff_eq, ClassDecl.qualifiedName]
    split
    · exact hclass d hd
    · rintro rfl
      simp at hplain

/-- A raw call of a method on a name without a dot that is neither a parameter or local variable of
the caller nor the name of a class. -/
structure PlainCall (code : Codebase) (m : MethodDecl) (raw receiver method : String) : Prop where
  has_receiver : Signature.qualifier (CallText.parse raw).text = receiver
  has_method : Signature.method (CallText.parse raw).text = method
  receiver_ne : receiver ≠ ""
  undotted : '.' ∉ receiver.toList
  not_local : ∀ b ∈ m.parameters ++ m.locals, b.name ≠ receiver
  not_class : ∀ d ∈ code.classes, d.name ≠ receiver

/-- What a call on a receiver means if only the fields of a class can type it. -/
def callOnField (code : Codebase) (d : ClassDecl) (receiver method : String) : Resolution :=
  match d.fieldType? receiver with
  | some type => .resolved (code.canonicalClass type) method
  | none => .heuristic (Signature.join receiver method)

theorem local?_eq_none (className : String)
    (hlocal : ∀ b ∈ m.parameters ++ m.locals, b.name ≠ receiver) :
    (code.scope className m).local? receiver = none := by
  rw [Scope.local?, List.lookup_eq_none_iff]
  intro entry hentry
  rw [List.mem_reverse] at hentry
  obtain ⟨b, hb, htyped⟩ := List.mem_filterMap.mp hentry
  obtain ⟨-, -, rfl⟩ := Binding.typed?_eq_some_iff.mp htyped
  simpa using (hlocal b hb).symm

theorem field?_scope (hname : receiver ≠ "") (hfirst : code.findSimple? c.name = some d) :
    (code.scope c.name m).field? receiver = d.fieldType? receiver := by
  have hfields : (code.scope c.name m).fields = d.fields.filterMap Binding.typed? := by
    simp only [scope, fieldsOf, hfirst]
  rw [Scope.field?, hfields, lookup_typed hname]
  rfl

theorem PlainCall.receiver?_eq (h : code.PlainCall m raw receiver method)
    (hfirst : code.findSimple? c.name = some d) (onThis : Bool) :
    code.receiver? (code.scope c.name m) onThis receiver =
      (d.fieldType? receiver).map code.canonicalClass := by
  have hfield := field?_scope (m := m) h.receiver_ne hfirst
  unfold receiver?
  split
  · rw [hfield]
  · rw [Scope.lookup?, local?_eq_none c.name h.not_local, Option.none_or, hfield]
    cases d.fieldType? receiver with
    | some type => rfl
    | none => simp [find?_eq_none_of_plain h.undotted h.not_class]

theorem PlainCall.resolve_eq (h : code.PlainCall m raw receiver method)
    (hfirst : code.findSimple? c.name = some d) :
    code.resolve (code.scope c.name m) raw = some (code.callOnField d receiver method) := by
  have hcall : Signature.qualifier (CallText.parse raw).text ≠ "" :=
    h.has_receiver ▸ h.receiver_ne
  have hsome : (CallText.parse raw).text ≠ "" := by
    intro hempty
    rw [hempty] at hcall
    exact hcall (by decide)
  have hmethod := (CallText.bare_parse raw).method_ne_empty hsome
  unfold resolve
  dsimp only
  rw [if_neg (by simpa using hsome), if_neg (by simpa using hmethod), if_neg (by simpa using hcall),
    h.has_receiver, h.has_method, h.receiver?_eq hfirst, callOnField]
  cases d.fieldType? receiver <;> rfl

theorem callOnField_eq_iff :
    code.callOnField d receiver method = code.callOnField e receiver method ↔
      (d.fieldType? receiver).map code.canonicalClass =
        (e.fieldType? receiver).map code.canonicalClass := by
  unfold callOnField
  cases d.fieldType? receiver <;> cases e.fieldType? receiver <;> simp

theorem Declares.hasEdge_of_resolve {resolution : Resolution} (hdeclared : code.Declares c m)
    (hraw : raw ∈ m.calls)
    (hresolve : code.resolve (code.scope c.name m) raw = some resolution)
    (classifier : Option Classifier) (keep : Bool) :
    (code.analyse classifier keep).graph.hasEdge (Signature.join c.name m.name)
      resolution.signature = true := by
  rw [hasEdge_analyse, hasEdge_callGraph]
  exact .inl ⟨resolution, ⟨c, m, hdeclared, rfl, raw, hraw, hresolve⟩, rfl⟩

/-- A call on a plain name is typed by the fields of the first class with the simple name of its
own class, so it means what its own class says just where the two agree on the type. -/
theorem receiver_typed_by_namesake (hdeclared : code.Declares c m) (hraw : raw ∈ m.calls)
    (hcall : code.PlainCall m raw receiver method) :
    ∃ d, code.findSimple? c.name = some d ∧
      code.resolve (code.scope c.name m) raw = some (code.callOnField d receiver method) ∧
      (∀ classifier keep, (code.analyse classifier keep).graph.hasEdge
        (Signature.join c.name m.name) (code.callOnField d receiver method).signature = true) ∧
      (code.resolve (code.scope c.name m) raw = some (code.callOnField c receiver method) ↔
        (d.fieldType? receiver).map code.canonicalClass =
          (c.fieldType? receiver).map code.canonicalClass) := by
  obtain ⟨d, hfirst⟩ := findSimple?_of_mem hdeclared.mem_classes
  have hresolve := hcall.resolve_eq hfirst
  refine ⟨d, hfirst, hresolve, hdeclared.hasEdge_of_resolve hraw hresolve, ?_⟩
  rw [hresolve, Option.some.injEq, callOnField_eq_iff]

end Codebase

def utilGo : MethodDecl where
  name := "go"
  calls := ["client.send()", "repo.save()"]

def utilWithClient : ClassDecl where
  name := "Util"
  package := "com.a"
  fields := [⟨"client", "HttpClient"⟩]

def utilWithRepo : ClassDecl where
  name := "Util"
  package := "com.b"
  fields := [⟨"repo", "Repo"⟩]
  methods := [utilGo]

def twoUtils : Codebase where
  classes := [utilWithClient, utilWithRepo]

theorem twoUtils_declares : twoUtils.Declares utilWithRepo utilGo :=
  ⟨by decide, by decide, by decide, by decide⟩

theorem twoUtils_plainCall_client : twoUtils.PlainCall utilGo "client.send()" "client" "send" :=
  ⟨by decide +kernel, by decide +kernel, by decide, by decide, by decide, by decide⟩

theorem twoUtils_plainCall_repo : twoUtils.PlainCall utilGo "repo.save()" "repo" "save" :=
  ⟨by decide +kernel, by decide +kernel, by decide, by decide, by decide, by decide⟩

theorem receiver_typed_by_namesake_util :
    twoUtils.Declares utilWithRepo utilGo ∧ "client.send()" ∈ utilGo.calls ∧
      twoUtils.PlainCall utilGo "client.send()" "client" "send" ∧
      twoUtils.resolve (twoUtils.scope "Util" utilGo) "client.send()" =
        some (.resolved "HttpClient" "send") := by
  refine ⟨twoUtils_declares, by decide, twoUtils_plainCall_client, ?_⟩
  obtain ⟨d, hfirst, hresolve, -⟩ := Codebase.receiver_typed_by_namesake twoUtils_declares
    (by decide) twoUtils_plainCall_client
  obtain rfl : d = utilWithClient := by
    have hutil : twoUtils.findSimple? utilWithRepo.name = some utilWithClient := by decide
    exact Option.some.inj (hfirst.symm.trans hutil)
  exact hresolve.trans (by decide +kernel)

theorem field_borrowed_and_lost :
    (twoUtils.Declares utilWithRepo utilGo ∧
      twoUtils.PlainCall utilGo "client.send()" "client" "send" ∧
      twoUtils.PlainCall utilGo "repo.save()" "repo" "save") ∧
    (utilWithRepo.fieldType? "client" = none ∧
      twoUtils.resolve (twoUtils.scope "Util" utilGo) "client.send()" =
        some (.resolved "HttpClient" "send")) ∧
    (utilWithRepo.fieldType? "repo" = some "Repo" ∧
      twoUtils.resolve (twoUtils.scope "Util" utilGo) "repo.save()" =
        some (.heuristic "repo.save")) :=
  ⟨⟨twoUtils_declares, twoUtils_plainCall_client, twoUtils_plainCall_repo⟩, by decide +kernel,
    by decide +kernel⟩

end CallTrace
