import CallTrace.Proofs.Firsts
import CallTrace.Proofs.Hierarchy.Targets

/-!
The order of implementations. Classes that list an interface by its last segment come first, then
those that list it by the qualified name of the type known by that segment, then those that list it
by the very name that is asked for; in each group they stand as in the code, and each name stands
once.
-/

namespace CallTrace

/-- The class has a name, is no interface and lists an interface with this bare name. -/
def ClassDecl.ListsAs (c : ClassDecl) (key : String) : Prop :=
  c.name ≠ "" ∧ c.isInterface = false ∧ ∃ i ∈ c.interfaces, TypeName.base i = key

instance (c : ClassDecl) (key : String) : Decidable (c.ListsAs key) :=
  inferInstanceAs (Decidable (_ ∧ _))

theorem ClassDecl.implements_iff {c : ClassDecl} {key : String} :
    c.Implements key ↔ key ≠ "" ∧ c.ListsAs key := by
  constructor
  · rintro ⟨hname, hclass, hkey, hlisted⟩
    exact ⟨hkey, hname, hclass, hlisted⟩
  · rintro ⟨hkey, hname, hclass, hlisted⟩
    exact ⟨hname, hclass, hkey, hlisted⟩

namespace Codebase

def listing (code : Codebase) (key : String) : List String :=
  (code.classes.filter fun c => c.ListsAs key).map fun c => c.name

def registered? (code : Codebase) (name : String) : Option ClassDecl :=
  if name = "" then none else code.findSimple? name

end Codebase

namespace Hierarchy

variable {code : Codebase}

theorem declaring_eq_listing (code : Codebase) (key : String) :
    (ofCodebase code).declaring key = (if key = "" then [] else code.listing key).eraseDups := by
  rw [declaring_ofCodebase]
  by_cases hkey : key = ""
  · simp [hkey, ClassDecl.Implements]
  · simp only [ClassDecl.implements_iff, ne_eq, hkey, not_false_eq_true, true_and, if_false,
      Codebase.listing]

theorem type?_eq_registered? (code : Codebase) (name : String) :
    (ofCodebase code).type? name = (code.registered? name).map .ofClass := by
  rw [type?_ofCodebase, Codebase.registered?]
  split <;> rfl

theorem keysOf_ofCodebase {name segment : String} (hlast : Text.LastSegment name segment) :
    (ofCodebase code).keysOf name =
      [segment] ++ ((code.registered? segment).map fun c => c.qualifiedName).toList ++
        (if name = segment then [] else [name]) := by
  obtain rfl := Text.afterLastDot_eq_iff.mpr hlast
  simp only [keysOf, type?_eq_registered?, Option.map_map, beq_iff_eq]
  rfl

theorem qualifiedName_ne_empty {c : ClassDecl} (hname : c.name ≠ "") : c.qualifiedName ≠ "" := by
  unfold ClassDecl.qualifiedName
  split
  · exact hname
  · intro hempty
    simpa using congrArg String.toList hempty

theorem name_of_registered? {name : String} {c : ClassDecl} (hc : code.registered? name = some c) :
    c.name = name ∧ c.name ≠ "" := by
  unfold Codebase.registered? at hc
  split at hc
  · cases hc
  · rename_i hname
    have hfound : c.name = name := by simpa using List.find?_some hc
    exact ⟨hfound, hfound ▸ hname⟩

end Hierarchy

open Hierarchy

namespace Codebase

def listingFor (code : Codebase) (name segment : String) : List String :=
  (if segment = "" then [] else code.listing segment) ++
    ((code.registered? segment).map fun c => code.listing c.qualifiedName).getD [] ++
    (if name = segment then [] else code.listing name)

theorem implementors_eq {code : Codebase} {name segment : String}
    (hlast : Text.LastSegment name segment) :
    (ofCodebase code).implementors name = (code.listingFor name segment).eraseDups := by
  have hlisting : (ofCodebase code).declaring =
      fun key => (if key = "" then [] else code.listing key).eraseDups :=
    funext (declaring_eq_listing code)
  have hknown : (((code.registered? segment).map fun c => c.qualifiedName).toList.flatMap
      fun key => if key = "" then [] else code.listing key) =
        ((code.registered? segment).map fun c => code.listing c.qualifiedName).getD [] := by
    cases hc : code.registered? segment with
    | none => rfl
    | some c => simp [qualifiedName_ne_empty (name_of_registered? hc).2]
  have hself : ((if name = segment then [] else [name]).flatMap
      fun key => if key = "" then [] else code.listing key) =
        if name = segment then [] else code.listing name := by
    split
    · rfl
    · rename_i hdiffer
      obtain ⟨front, rfl⟩ := hlast.2.resolve_left hdiffer
      simp
  rw [implementors, hlisting, eraseDups_flatMap_eraseDups, keysOf_ofCodebase hlast,
    List.flatMap_append, List.flatMap_append, List.flatMap_singleton, hknown, hself, listingFor]

theorem nodup_targets (h : Hierarchy) (interface method : String) :
    (h.targets interface method).Nodup := by
  unfold targets
  split
  · refine List.Nodup.map ?_ ((nodup_eraseDups _).filter _)
    exact fun _ _ hjoin => Signature.join_left_inj.mp hjoin
  · exact List.nodup_nil

/-- Implementations are found in three groups, each in the order of the code: classes that list the
interface by its last segment, unless that is empty, those that list it by the qualified name of the
type known by the segment, and those that list it by the name itself. Each is found once, none of
them is an interface only, and no target repeats. -/
theorem implementors_in_groups (code : Codebase) {name segment : String}
    (hlast : Text.LastSegment name segment) :
    (ofCodebase code).implementors name = (code.listingFor name segment).eraseDups ∧
    ((ofCodebase code).implementors name).Nodup ∧
    (∀ found ∈ (ofCodebase code).implementors name,
      ∃ c ∈ code.classes, c.name = found ∧ c.isInterface = false) ∧
    ∀ method, ((ofCodebase code).targets name method).Nodup := by
  refine ⟨implementors_eq hlast, nodup_eraseDups _, ?_, fun method => nodup_targets _ name method⟩
  intro found hfound
  obtain ⟨c, hc, hname, _, -, himplements⟩ := mem_implementors.mp hfound
  exact ⟨c, hc, hname, himplements.2.1⟩

end Codebase

def spelledRepo : Codebase where
  classes :=
    [{ name := "FileRepo", interfaces := ["lib.Repo", "Repo<User>"] },
     { name := "Repo", package := "com.acme", isInterface := true },
     { name := "LibRepo", interfaces := ["lib.Repo"] },
     { name := "JpaRepo", interfaces := ["com.acme.Repo"] },
     { name := "JdbcRepo", interfaces := ["Repo"] }]

theorem implementors_in_groups_repo :
    Text.LastSegment "lib.Repo" "Repo" ∧
      (ofCodebase spelledRepo).implementors "lib.Repo" =
        ["FileRepo", "JdbcRepo", "JpaRepo", "LibRepo"] := by
  have hlast : Text.LastSegment "lib.Repo" "Repo" := ⟨by decide, .inr ⟨"lib", rfl⟩⟩
  exact ⟨hlast, (spelledRepo.implementors_in_groups hlast).1.trans (by decide +kernel)⟩

def nothingImplemented : Codebase where
  classes := [{ name := "Job", interfaces := [""] }]

/-- No class is noted under an empty name, though it lists one. -/
theorem empty_interface_unlisted :
    Text.LastSegment "" "" ∧
      (nothingImplemented.listing "" ++
        ((nothingImplemented.registered? "").map fun c =>
          nothingImplemented.listing c.qualifiedName).getD []).eraseDups = ["Job"] ∧
      (ofCodebase nothingImplemented).implementors "" = [] :=
  ⟨⟨by decide, .inl rfl⟩, by decide +kernel, by decide +kernel⟩

end CallTrace
