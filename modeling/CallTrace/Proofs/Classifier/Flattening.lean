import CallTrace.Proofs.Classifier.Layers
import CallTrace.Proofs.Dispatch.EntryPoints

/-!
Classifiers put together to any depth. How the members of a composite are grouped makes no
difference: an inner composite leaves out only what the outer one would leave out, and has no layer
exactly where none of its members has one.
-/

namespace CallTrace

open Classifier (firstKnown composite)

inductive Assembly where
  | single (classifier : Classifier)
  | merged (parts : List Assembly)

namespace Assembly

mutual

def classifier : Assembly → Classifier
  | .single classifier => classifier
  | .merged parts => .composite (classifiers parts)

def classifiers : List Assembly → List Classifier
  | [] => []
  | part :: rest => part.classifier :: classifiers rest

end

mutual

/-- The classifiers that are no composites of parts, from left to right. -/
def members : Assembly → List Classifier
  | .single classifier => [classifier]
  | .merged parts => membersOf parts

def membersOf : List Assembly → List Classifier
  | [] => []
  | part :: rest => part.members ++ membersOf rest

end

theorem classifiers_eq_map (parts : List Assembly) :
    classifiers parts = parts.map Assembly.classifier := by
  induction parts with
  | nil => rfl
  | cons part rest ih => rw [classifiers, ih, List.map_cons]

theorem membersOf_eq_flatMap (parts : List Assembly) :
    membersOf parts = parts.flatMap Assembly.members := by
  induction parts with
  | nil => rfl
  | cons part rest ih => rw [membersOf, ih, List.flatMap_cons]

section Layers

variable (className : String) (decl : Option ClassDecl) (method : String)

def layersBy (members : List Classifier) : List Layer :=
  members.map fun member => member.layerOf className decl method

mutual

theorem layerOf_classifier (part : Assembly) :
    part.classifier.layerOf className decl method =
      firstKnown (layersBy className decl method part.members) := by
  cases part with
  | single member => exact (Classifier.firstKnown_singleton _).symm
  | merged parts => exact firstKnown_classifiers parts

theorem firstKnown_classifiers (parts : List Assembly) :
    firstKnown (layersBy className decl method (classifiers parts)) =
      firstKnown (layersBy className decl method (membersOf parts)) := by
  cases parts with
  | nil => rfl
  | cons part rest =>
      have hpart := layerOf_classifier part
      have hrest := firstKnown_classifiers rest
      simp only [layersBy] at hpart hrest ⊢
      rw [classifiers, membersOf, List.map_cons, List.map_append, Classifier.firstKnown_append,
        ← hpart, Classifier.firstKnown_cons, Classifier.firstKnown_cons, hrest]

end

end Layers

section EntryPoints

variable (code : Codebase)

def reports (members : List Classifier) : List EntryPoint :=
  members.flatMap fun member => member.entryPoints code

theorem entryPoints_composite (members : List Classifier) :
    (composite members).entryPoints code = firstsBy EntryPoint.signature (reports code members) :=
  EntryPoint.firstBySignature_eq _

mutual

theorem firstsBy_entryPoints (part : Assembly) :
    firstsBy EntryPoint.signature (part.classifier.entryPoints code) =
      firstsBy EntryPoint.signature (reports code part.members) := by
  cases part with
  | single member => rw [classifier, members, reports, List.flatMap_singleton]
  | merged parts =>
      rw [classifier, entryPoints_composite, firstsBy_firstsBy]
      exact firstsBy_reports parts

theorem firstsBy_reports (parts : List Assembly) :
    firstsBy EntryPoint.signature (reports code (classifiers parts)) =
      firstsBy EntryPoint.signature (reports code (membersOf parts)) := by
  cases parts with
  | nil => rfl
  | cons part rest =>
      have hpart := firstsBy_entryPoints part
      have hrest := firstsBy_reports rest
      simp only [reports] at hpart hrest ⊢
      rw [classifiers, membersOf, List.flatMap_cons, List.flatMap_append]
      exact firstsBy_append_congr hpart hrest

end

end EntryPoints

/-- A composite of parts, which may be composites themselves, is the composite of all their members
from left to right: it gives the same layers and the same entry points in the same order. No two of
these share a signature, and they are the first that a member tells of each signature. -/
theorem composite_flattens (parts : List Assembly) :
    composite (parts.map Assembly.classifier) = composite (parts.flatMap Assembly.members) ∧
    ∀ code,
      EntryPoint.Distinct ((composite (parts.map Assembly.classifier)).entryPoints code) ∧
      (∀ entry, entry ∈ (composite (parts.map Assembly.classifier)).entryPoints code ↔
        (reports code (parts.flatMap Assembly.members)).find?
          (fun e => e.signature == entry.signature) = some entry) ∧
      ∀ member ∈ parts.flatMap Assembly.members, ∀ report ∈ member.entryPoints code,
        ∃ first ∈ (composite (parts.map Assembly.classifier)).entryPoints code,
          first.signature = report.signature := by
  rw [← classifiers_eq_map, ← membersOf_eq_flatMap]
  have hentries : ∀ code, (composite (classifiers parts)).entryPoints code =
      firstsBy EntryPoint.signature (reports code (membersOf parts)) := by
    intro code
    rw [entryPoints_composite, firstsBy_reports]
  refine ⟨?_, fun code => ⟨?_, ?_, ?_⟩⟩
  · have hlayers : (composite (classifiers parts)).layerOf = (composite (membersOf parts)).layerOf := by
      funext className decl method
      exact firstKnown_classifiers className decl method parts
    have hsame : (composite (classifiers parts)).entryPoints =
        (composite (membersOf parts)).entryPoints := by
      funext code
      rw [hentries, entryPoints_composite]
    exact congrArg₂ (Classifier.mk "composite") hlayers hsame
  · rw [hentries]
    exact nodup_map_firstsBy _ _
  · intro entry
    rw [hentries]
    exact mem_firstsBy
  · intro member hmember report hreport
    have htold : report.signature ∈
        (reports code (membersOf parts)).map EntryPoint.signature :=
      List.mem_map_of_mem (List.mem_flatMap.mpr ⟨member, hmember, hreport⟩)
    rw [hentries]
    exact List.mem_map.mp (mem_map_firstsBy.mpr htold)

end Assembly

end CallTrace
