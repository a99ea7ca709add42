import CallTrace.Proofs.Codebase.Pruned
import CallTrace.Proofs.Hierarchy.Targets

/-!
The hierarchy of code without unnamed classes and methods. Unless a class with a blank name
implements an interface, it tells the same of every name whose class stays: whether it is an
interface, where its file is, and which implementations have a method.
-/

namespace CallTrace

theorem TypeName.not_isBlankChar_of_mem_base {declared : String} {c : Char}
    (h : c ∈ (base declared).toList) : Text.isBlankChar c = false := by
  rw [base, String.toList_ofList, baseChars, Text.lastWord, List.mem_reverse] at h
  simpa using List.mem_takeWhile_imp h

namespace Codebase

def UnnamedImplementNone (code : Codebase) : Prop :=
  ∀ c ∈ code.classes, Text.isBlank c.name = true → ∀ i ∈ c.interfaces,
    ¬c.Implements (TypeName.base i)

instance (code : Codebase) : Decidable code.UnnamedImplementNone :=
  inferInstanceAs (Decidable (∀ c ∈ code.classes, _))

theorem UnnamedImplementNone.named {code : Codebase} (h : code.UnnamedImplementNone) {c : ClassDecl}
    (hc : c ∈ code.classes) {key : String} (himplements : c.Implements key) :
    Text.isBlank c.name = false := by
  obtain ⟨i, hi, rfl⟩ := himplements.2.2.2
  exact Bool.eq_false_iff.mpr fun hblank => h c hc hblank i hi himplements

end Codebase

namespace ClassDecl

theorem declares_pruned {c : ClassDecl} {method : String} (hmethod : Text.isBlank method = false) :
    c.pruned.declares method = true ↔ c.declares method = true := by
  rw [declares_iff, declares_iff]
  constructor
  · rintro ⟨m, hm, hname⟩
    exact ⟨m, (List.mem_filter.mp hm).1, hname⟩
  · rintro ⟨m, hm, rfl⟩
    exact ⟨m, List.mem_filter.mpr ⟨hm, by simp [hmethod]⟩, rfl⟩

theorem exists_blank_of_qualifiedName {c : ClassDecl} (hblank : Text.isBlank c.name = true)
    (hname : c.name ≠ "") : ∃ b ∈ c.qualifiedName.toList, Text.isBlankChar b = true := by
  obtain ⟨b, hb⟩ : ∃ b, b ∈ c.name.toList := by
    apply List.exists_mem_of_ne_nil
    simpa using hname
  refine ⟨b, ?_, List.all_eq_true.mp hblank b hb⟩
  rw [qualifiedName]
  split
  · exact hb
  · simp [hb]

end ClassDecl

namespace Hierarchy

variable {code : Codebase} (h : code.UnnamedImplementNone)

include h in
theorem declaring_pruned (key : String) :
    (ofCodebase code.pruned).declaring key = (ofCodebase code).declaring key := by
  have hkept : (code.classes.filter fun c => !Text.isBlank c.name).filter
      (fun c => c.pruned.Implements key) = code.classes.filter fun c => c.Implements key := by
    rw [List.filter_filter]
    apply List.filter_congr
    intro c hc
    by_cases himplements : c.Implements key
    · have hsame : c.pruned.Implements key := himplements
      simp [himplements, hsame, h.named hc himplements]
    · have hsame : ¬c.pruned.Implements key := himplements
      simp [himplements, hsame]
  rw [declaring_ofCodebase, declaring_ofCodebase, ← hkept, Codebase.pruned, List.filter_map,
    List.map_map]
  rfl

include h in
theorem isListed_pruned (key : String) :
    (ofCodebase code.pruned).IsListed key ↔ (ofCodebase code).IsListed key := by
  rw [isListed_ofCodebase, isListed_ofCodebase]
  constructor
  · rintro ⟨d, hd, himplements⟩
    obtain ⟨c, hc, rfl⟩ := List.mem_map.mp hd
    exact ⟨c, (List.mem_filter.mp hc).1, himplements⟩
  · rintro ⟨c, hc, himplements⟩
    refine ⟨c.pruned, List.mem_map_of_mem (List.mem_filter.mpr ⟨hc, ?_⟩), himplements⟩
    simp [h.named hc himplements]

theorem declaring_eq_nil_of_blank {key : String} {b : Char} (hb : b ∈ key.toList)
    (hblank : Text.isBlankChar b = true) : (ofCodebase code).declaring key = [] := by
  rw [List.eq_nil_iff_forall_not_mem]
  intro name hname
  obtain ⟨c, -, ⟨-, -, -, i, -, rfl⟩, -⟩ := mem_declaring.mp hname
  rw [TypeName.not_isBlankChar_of_mem_base hb] at hblank
  contradiction

section Found

variable {name : String}
  (hfound : code.pruned.findSimple? name = (code.findSimple? name).map ClassDecl.pruned)

include hfound

theorem qualifiedName_pruned :
    ((ofCodebase code.pruned).type? name).map (fun info => info.qualifiedName) =
      ((ofCodebase code).type? name).map fun info => info.qualifiedName := by
  rw [type?_ofCodebase, type?_ofCodebase, hfound]
  split
  · rfl
  · simp only [Option.map_map]
    rfl

theorem file?_pruned : (ofCodebase code.pruned).file? name = (ofCodebase code).file? name := by
  rw [file?, file?, type?_ofCodebase, type?_ofCodebase, hfound]
  split
  · rfl
  · simp only [Option.map_map]
    rfl

include h in
theorem isInterface_pruned :
    (ofCodebase code.pruned).isInterface name = (ofCodebase code).isInterface name := by
  have hlisted := isListed_pruned h name
  rw [isListed_ofCodebase, isListed_ofCodebase] at hlisted
  rw [Bool.eq_iff_iff, isInterface_ofCodebase, isInterface_ofCodebase, hlisted, hfound]
  simp [ClassDecl.pruned]

theorem declares_pruned {method : String} (hmethod : Text.isBlank method = false) :
    (ofCodebase code.pruned).declares name method = (ofCodebase code).declares name method := by
  rw [Bool.eq_iff_iff, declares_ofCodebase, declares_ofCodebase, hfound]
  simp [ClassDecl.declares_pruned hmethod]

end Found

theorem findSimple?_pruned_of_named {name : String} (hname : Text.isBlank name = false) :
    code.pruned.findSimple? name = (code.findSimple? name).map ClassDecl.pruned := by
  refine Codebase.find?_classes_pruned (fun _ => rfl) fun d hd => ?_
  have hsame : d.name = name := by simpa using List.find?_some hd
  rw [hsame]
  exact hname

/-- A type with a blank name may be known under one more key, but no class is noted under that. -/
theorem flatMap_declaring_qualifiedName (name : String) :
    (((ofCodebase code.pruned).type? name).map fun info => info.qualifiedName).toList.flatMap
        (ofCodebase code).declaring =
      (((ofCodebase code).type? name).map fun info => info.qualifiedName).toList.flatMap
        (ofCodebase code).declaring := by
  cases hblank : Text.isBlank name with
  | false => rw [qualifiedName_pruned (findSimple?_pruned_of_named hblank)]
  | true =>
      have hnone : (ofCodebase code.pruned).type? name = none := by
        rw [type?_ofCodebase]
        split
        · rfl
        · rw [Option.map_eq_none_iff, Codebase.findSimple?, List.find?_eq_none]
          intro d hd hsame
          obtain ⟨c, hc, rfl⟩ := List.mem_map.mp hd
          obtain rfl : c.name = name := by simpa [ClassDecl.pruned] using hsame
          simp [hblank] at hc
      rw [hnone, type?_ofCodebase]
      split
      · rfl
      · rename_i hname
        cases hclass : code.findSimple? name with
        | none => rfl
        | some d =>
            obtain rfl : d.name = name := by simpa using List.find?_some hclass
            obtain ⟨b, hb, hbchar⟩ := d.exists_blank_of_qualifiedName hblank hname
            simp [TypeInfo.ofClass, declaring_eq_nil_of_blank hb hbchar]

include h

theorem implementors_pruned (interface : String) :
    (ofCodebase code.pruned).implementors interface = (ofCodebase code).implementors interface := by
  have hdeclaring : (ofCodebase code.pruned).declaring = (ofCodebase code).declaring :=
    funext (declaring_pruned h)
  simp only [implementors, keysOf, hdeclaring, List.flatMap_append,
    flatMap_declaring_qualifiedName]

theorem targets_pruned {interface method : String}
    (hfound : code.pruned.findSimple? interface =
      (code.findSimple? interface).map ClassDecl.pruned)
    (hmethod : Text.isBlank method = false) :
    (ofCodebase code.pruned).targets interface method =
      (ofCodebase code).targets interface method := by
  have hdeclares : ((ofCodebase code).implementors interface).filter
      (fun name => (ofCodebase code.pruned).declares name method) =
      ((ofCodebase code).implementors interface).filter
        fun name => (ofCodebase code).declares name method := by
    apply List.filter_congr
    intro name hname
    obtain ⟨c, hc, rfl, key, -, himplements⟩ := mem_implementors.mp hname
    exact declares_pruned (findSimple?_pruned_of_named (h.named hc himplements)) hmethod
  rw [targets, targets, isInterface_pruned h hfound, implementors_pruned h, hdeclares]

end Hierarchy

end CallTrace
