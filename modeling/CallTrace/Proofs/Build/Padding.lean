import CallTrace.Proofs.Build.Pruned
import CallTrace.Proofs.Text.Trim

/-!
Blanks at the ends of signatures come from the names in the code alone: what is read of a call or a
type has none. So where no class name starts and no method name ends with a blank, all signatures of
a build are trimmed.
-/

namespace CallTrace

namespace CallText

variable (raw : String)

theorem startsBlank_parse : Text.startsBlank (parse raw).text = false :=
  Text.startsBlank_of_plain fun _ => not_isBlankChar_of_mem_parse

theorem endsBlank_parse : Text.endsBlank (parse raw).text = false :=
  Text.endsBlank_of_plain fun _ => not_isBlankChar_of_mem_parse

end CallText

namespace Codebase

/-- No class has a name that starts with a blank, and no method one that ends with a blank. -/
def Unpadded (code : Codebase) : Prop :=
  ∀ c ∈ code.classes, Text.startsBlank c.name = false ∧
    ∀ m ∈ c.methods, Text.endsBlank m.name = false

instance (code : Codebase) : Decidable code.Unpadded :=
  inferInstanceAs (Decidable (∀ c ∈ code.classes, _))

namespace Unpadded

variable {code : Codebase} (h : code.Unpadded)

include h

theorem startsBlank_foundName {name owner : String} (hfound : code.foundName? name = some owner) :
    Text.startsBlank owner = false := by
  obtain ⟨c, hc, rfl⟩ := Option.map_eq_some_iff.mp hfound
  exact (h c (mem_of_find? hc)).1

theorem startsBlank_canonicalClass (type : String) :
    Text.startsBlank (code.canonicalClass type) = false := by
  rw [canonicalClass_eq_getD]
  cases hfound : code.foundName? (TypeName.base type) with
  | none => exact Text.startsBlank_of_plain fun _ => TypeName.not_isBlankChar_of_mem_base
  | some owner => exact h.startsBlank_foundName hfound

theorem of_calls_resolved {caller : Signature} {owner method : String}
    (hcalls : code.Calls caller (.resolved owner method)) :
    Text.startsBlank owner = false ∧ Text.endsBlank method = false := by
  obtain ⟨c, m, hdeclared, -, raw, -, hresolve⟩ := hcalls
  obtain ⟨hmethod, -, howner⟩ := resolve_eq_resolved hresolve
  rw [hmethod]
  refine ⟨?_, Signature.endsBlank_method (CallText.endsBlank_parse raw)⟩
  rcases howner with rfl | ⟨type, -, rfl⟩ | ⟨-, hfound⟩
  · exact (h c hdeclared.mem_classes).1
  · exact h.startsBlank_canonicalClass type
  · exact h.startsBlank_foundName hfound

theorem trim_caller {caller : Signature} {resolution : Resolution}
    (hcalls : code.Calls caller resolution) : Text.trim caller = caller := by
  obtain ⟨c, m, hdeclared, rfl, -⟩ := hcalls
  obtain ⟨hclass, hmethods⟩ := h c hdeclared.mem_classes
  exact Signature.trim_join_iff.mpr ⟨hclass, hmethods m hdeclared.mem_methods⟩

theorem trim_callee {caller : Signature} {resolution : Resolution}
    (hcalls : code.Calls caller resolution) :
    Text.trim resolution.signature = resolution.signature := by
  cases resolution with
  | resolved owner method => exact Signature.trim_join_iff.mpr (h.of_calls_resolved hcalls)
  | heuristic expression =>
      obtain ⟨_, _, -, -, raw, -, hresolve⟩ := hcalls
      rw [Resolution.signature, resolve_eq_heuristic hresolve]
      exact Text.trim_eq_self_iff.mpr ⟨CallText.startsBlank_parse raw, CallText.endsBlank_parse raw⟩

theorem trim_target {interface method : String} (hmethod : Text.endsBlank method = false)
    {target : Signature} (htarget : target ∈ (Hierarchy.ofCodebase code).targets interface method) :
    Text.trim target = target := by
  obtain ⟨-, name, hname, -, rfl⟩ := Hierarchy.mem_targets.mp htarget
  obtain ⟨c, hc, rfl, -⟩ := Hierarchy.mem_implementors.mp hname
  exact Signature.trim_join_iff.mpr ⟨(h c hc).1, hmethod⟩

theorem trim_edge {u v : Signature} (hedge : code.callGraph.hasEdge u v = true) :
    Text.trim u = u ∧ Text.trim v = v := by
  rcases hasEdge_callGraph.mp hedge with
    ⟨resolution, hcalls, rfl⟩ | ⟨owner, method, hcalls, htarget⟩
  · exact ⟨h.trim_caller hcalls, h.trim_callee hcalls⟩
  · exact ⟨h.trim_caller hcalls, h.trim_target (h.of_calls_resolved hcalls).2 htarget⟩

end Unpadded

end Codebase

namespace Classifier

def TellsMethods (classifier : Classifier) (code : Codebase) : Prop :=
  ∀ entry ∈ classifier.entryPoints code, ∃ c ∈ code.classes, ∃ m ∈ c.methods, ∃ kind path,
    entry = .ofMethod kind path c.name m.name c.filePath

theorem tellsMethods_spring (code : Codebase) : spring.TellsMethods code := by
  intro entry hentry
  obtain ⟨c, hc, hentry⟩ := List.mem_flatMap.mp hentry
  rw [Spring.classEntryPoints_eq] at hentry
  obtain ⟨m, hm, hentry⟩ := List.mem_filterMap.mp hentry
  exact ⟨c, hc, m, hm, (Spring.of_entryOf hentry).2⟩

theorem tellsMethods_naming (code : Codebase) : naming.TellsMethods code := by
  intro entry hentry
  obtain ⟨c, hc, hentry⟩ := List.mem_flatMap.mp hentry
  rw [Naming.classEntryPoints_eq] at hentry
  obtain ⟨m, hm, hentry⟩ := List.mem_filterMap.mp hentry
  exact ⟨c, hc, m, hm, (Naming.of_entryOf hentry).2⟩

theorem tellsMethods_composite {members : List Classifier} {code : Codebase}
    (hmembers : ∀ member ∈ members, member.TellsMethods code) :
    (composite members).TellsMethods code := by
  intro entry hentry
  obtain ⟨member, hmember, htold⟩ := exists_member_of_mem_composite hentry
  exact hmembers member hmember entry htold

end Classifier

theorem ClassifierChoice.tellsMethods {choice : ClassifierChoice} {classifier : Classifier}
    (h : classifier ∈ choice.classifier?) (code : Codebase) : classifier.TellsMethods code := by
  cases choice with
  | spring =>
      cases h
      exact Classifier.tellsMethods_spring code
  | naming =>
      cases h
      exact Classifier.tellsMethods_naming code
  | composite =>
      cases h
      apply Classifier.tellsMethods_composite
      intro member hmember
      simp only [List.mem_cons, List.not_mem_nil, or_false] at hmember
      rcases hmember with rfl | rfl
      · exact Classifier.tellsMethods_spring code
      · exact Classifier.tellsMethods_naming code
  | none => cases h

theorem Codebase.Unpadded.trim_entry {code : Codebase} (h : code.Unpadded)
    {choice : ClassifierChoice} {keep : Bool} {entry : EntryPoint}
    (hentry : entry ∈ (code.analyse choice.classifier? keep).entryPoints) :
    Text.trim entry.signature = entry.signature := by
  obtain ⟨teller, hteller, told, htold, hstands⟩ :=
    (code.names_analyse choice.classifier? keep entry.signature).mp ⟨entry, hentry, rfl⟩
  obtain ⟨c, hc, m, hm, kind, path, rfl⟩ :=
    ClassifierChoice.tellsMethods hteller code told htold
  obtain ⟨hclass, hmethods⟩ := h c hc
  rcases hstands with htarget | ⟨-, hsame⟩
  · have hmethod : Text.endsBlank (Signature.join c.name m.name) = false := by
      rw [Signature.endsBlank_join]
      exact hmethods m hm
    exact h.trim_target (Signature.endsBlank_method hmethod) htarget
  · rw [← hsame]
    exact Signature.trim_join_iff.mpr ⟨hclass, hmethods m hm⟩

end CallTrace
