import CallTrace.Proofs.Hierarchy.Content
import CallTrace.Proofs.Text.Dotted

/-!
Which methods a call on an interface may reach. A class is found by any of three names of the
interface, and its methods are those of the first class with its simple name. Where simple names are
not shared, each target is the method of one class that implements the interface.
-/

namespace CallTrace

namespace Codebase

def KnownAs (code : Codebase) (name qualified : String) : Prop :=
  name ≠ "" ∧ ∃ d ∈ code.findSimple? name, d.qualifiedName = qualified

def LooksFor (code : Codebase) (interface key : String) : Prop :=
  key = interface ∨ key = Text.afterLastDot interface ∨
    code.KnownAs (Text.afterLastDot interface) key

/-- The names an interface goes by: its own, its last segment and, for a name without a dot, the
qualified name of the type known by it. -/
def Names (code : Codebase) (interface key : String) : Prop :=
  key = interface ∨ key = Text.afterLastDot interface ∨
    '.' ∉ interface.toList ∧ code.KnownAs interface key

/-- The class by itself has the method and implements the interface. -/
def Answers (code : Codebase) (interface method : String) (c : ClassDecl) : Prop :=
  c.isInterface = false ∧ c.name ≠ "" ∧ c.declares method = true ∧
    ∃ i ∈ c.interfaces, TypeName.base i ≠ "" ∧ code.Names interface (TypeName.base i)

instance (code : Codebase) (name qualified : String) : Decidable (code.KnownAs name qualified) :=
  inferInstanceAs (Decidable (_ ∧ _))

instance (code : Codebase) (interface key : String) : Decidable (code.Names interface key) :=
  inferInstanceAs (Decidable (_ ∨ _))

instance (code : Codebase) (interface method : String) (c : ClassDecl) :
    Decidable (code.Answers interface method c) :=
  inferInstanceAs (Decidable (_ ∧ _))

theorem answers_iff {code : Codebase} {interface method : String} {c : ClassDecl} :
    code.Answers interface method c ↔
      c.declares method = true ∧ ∃ key, code.Names interface key ∧ c.Implements key := by
  constructor
  · rintro ⟨hclass, hname, hmethod, i, hi, hbase, hnames⟩
    exact ⟨hmethod, _, hnames, hname, hclass, hbase, i, hi, rfl⟩
  · rintro ⟨hmethod, key, hnames, hname, hclass, hkey, i, hi, rfl⟩
    exact ⟨hclass, hname, hmethod, i, hi, hkey, hnames⟩

theorem Names.looksFor {code : Codebase} {interface key : String}
    (h : code.Names interface key) : code.LooksFor interface key := by
  rcases h with h | h | ⟨hplain, hknown⟩
  · exact .inl h
  · exact .inr (.inl h)
  · rw [← Text.afterLastDot_of_not_mem hplain] at hknown
    exact .inr (.inr hknown)

/-- The type known by the last segment of an interface, if there is one, is the interface. -/
def Unmistaken (code : Codebase) (interface : String) : Prop :=
  '.' ∉ interface.toList ∨ ∀ key, code.KnownAs (Text.afterLastDot interface) key →
    key = interface ∨ key = Text.afterLastDot interface

theorem looksFor_iff_names {code : Codebase} {interface : String}
    (h : code.Unmistaken interface) {key : String} :
    code.LooksFor interface key ↔ code.Names interface key := by
  refine ⟨?_, Names.looksFor⟩
  rintro (hkey | hkey | hknown)
  · exact .inl hkey
  · exact .inr (.inl hkey)
  · rcases h with hplain | hown
    · rw [Text.afterLastDot_of_not_mem hplain] at hknown
      exact .inr (.inr ⟨hplain, hknown⟩)
    · rcases hown key hknown with hkey | hkey
      · exact .inl hkey
      · exact .inr (.inl hkey)

end Codebase

namespace Hierarchy

theorem declares_ofCodebase {code : Codebase} {name method : String} :
    (ofCodebase code).declares name method = true ↔
      name ≠ "" ∧ ∃ d ∈ code.findSimple? name, d.declares method = true := by
  rw [declares, type?_ofCodebase]
  by_cases hname : name = ""
  · simp [hname]
  · cases code.findSimple? name with
    | none => simp [hname]
    | some d => simp [hname, TypeInfo.ofClass, ClassDecl.declares_iff]

theorem mem_keysOf {code : Codebase} {interface key : String} :
    key ∈ (ofCodebase code).keysOf interface ↔ code.LooksFor interface key := by
  have hknown : key ∈ (((ofCodebase code).type? (Text.afterLastDot interface)).map
      fun info => info.qualifiedName).toList ↔
        code.KnownAs (Text.afterLastDot interface) key := by
    rw [type?_ofCodebase, Codebase.KnownAs]
    by_cases hname : Text.afterLastDot interface = ""
    · simp [hname]
    · cases code.findSimple? (Text.afterLastDot interface) <;>
        simp [hname, TypeInfo.ofClass, eq_comm]
  simp only [keysOf, List.mem_append, hknown, List.mem_singleton, Codebase.LooksFor]
  by_cases hself : interface = Text.afterLastDot interface
  · simp [← hself]
  · simp only [beq_iff_eq, hself, if_false, List.mem_singleton]
    tauto

theorem mem_implementors {code : Codebase} {interface name : String} :
    name ∈ (ofCodebase code).implementors interface ↔
      ∃ c ∈ code.classes, c.name = name ∧
        ∃ key, code.LooksFor interface key ∧ c.Implements key := by
  simp only [implementors, List.mem_eraseDups, List.mem_flatMap, mem_keysOf, mem_declaring]
  constructor
  · rintro ⟨key, hkey, c, hc, himplements, hname⟩
    exact ⟨c, hc, hname, key, hkey, himplements⟩
  · rintro ⟨c, hc, hname, key, hkey, himplements⟩
    exact ⟨key, hkey, c, hc, himplements, hname⟩

theorem mem_targets {h : Hierarchy} {interface method : String} {s : Signature} :
    s ∈ h.targets interface method ↔
      h.isInterface interface = true ∧
        ∃ name ∈ h.implementors interface, h.declares name method = true ∧
          Signature.join name method = s := by
  unfold targets
  split
  · rename_i hinterface
    simp [hinterface, and_assoc]
  · rename_i hclass
    simp [hclass]

theorem join_mem_targets {h : Hierarchy} {interface method name : String}
    (hinterface : h.isInterface interface = true) :
    Signature.join name method ∈ h.targets interface method ↔
      name ∈ h.implementors interface ∧ h.declares name method = true := by
  simp [targets, hinterface, Signature.join_left_inj]

/-- All classes with the name can implement the interface, but only the first of them has methods. -/
theorem join_mem_targets_ofCodebase {code : Codebase} {interface method name : String}
    (hinterface : (ofCodebase code).isInterface interface = true) :
    Signature.join name method ∈ (ofCodebase code).targets interface method ↔
      (∃ c ∈ code.classes, c.name = name ∧
        ∃ key, code.LooksFor interface key ∧ c.Implements key) ∧
      ∃ d ∈ code.findSimple? name, d.declares method = true := by
  rw [join_mem_targets hinterface, mem_implementors, declares_ofCodebase]
  constructor
  · rintro ⟨himplements, -, hdeclares⟩
    exact ⟨himplements, hdeclares⟩
  · rintro ⟨⟨c, hc, rfl, key, hkey, himplements⟩, hdeclares⟩
    exact ⟨⟨c, hc, rfl, key, hkey, himplements⟩, himplements.1, hdeclares⟩

end Hierarchy

open Hierarchy

/-- A target is a class that lists the interface under a name it is looked for by, and whose simple
name belongs first to a class with the method. If no class shares its name and the interface is not
mistaken for another, this is a class that answers the call by itself. -/
theorem targets_of_classes (code : Codebase) (interface method name : String)
    (hinterface : (ofCodebase code).isInterface interface = true) :
    (Signature.join name method ∈ (ofCodebase code).targets interface method ↔
      (∃ c ∈ code.classes, c.name = name ∧
        ∃ key, code.LooksFor interface key ∧ c.Implements key) ∧
      ∃ d ∈ code.findSimple? name, d.declares method = true) ∧
    ((∀ c ∈ code.classes, c.name = name → code.findSimple? name = some c) →
      code.Unmistaken interface →
      (Signature.join name method ∈ (ofCodebase code).targets interface method ↔
        ∃ c ∈ code.classes, c.name = name ∧ code.Answers interface method c)) := by
  refine ⟨join_mem_targets_ofCodebase hinterface, fun hunique hunmistaken => ?_⟩
  rw [join_mem_targets_ofCodebase hinterface]
  constructor
  · rintro ⟨⟨c, hc, hname, key, hkey, himplements⟩, d, hd, hdeclares⟩
    obtain rfl : c = d := Option.some.inj ((hunique c hc hname).symm.trans hd)
    have hnames := (Codebase.looksFor_iff_names hunmistaken).mp hkey
    exact ⟨c, hc, hname, Codebase.answers_iff.mpr ⟨hdeclares, key, hnames, himplements⟩⟩
  · rintro ⟨c, hc, hname, hanswers⟩
    obtain ⟨hdeclares, key, hnames, himplements⟩ := Codebase.answers_iff.mp hanswers
    exact ⟨⟨c, hc, hname, key, hnames.looksFor, himplements⟩, c, hunique c hc hname, hdeclares⟩

/-- An interface, a class that implements it by its qualified name, and one that implements an
interface of another package with the same last segment. -/
def twoRepos : Codebase where
  classes :=
    [{ name := "Repo", package := "com.acme", isInterface := true,
       methods := [{ name := "find" }] },
     { name := "JpaRepo", package := "com.acme.jpa", interfaces := ["com.acme.Repo"],
       methods := [{ name := "find" }] },
     { name := "Unrelated", package := "org.other", interfaces := ["org.other.Repo"],
       methods := [{ name := "find" }] }]

def twoJobs : Codebase where
  classes :=
    [{ name := "Task", isInterface := true, methods := [{ name := "run" }] },
     { name := "Job", package := "com.a", methods := [{ name := "run" }] },
     { name := "Job", package := "com.b", interfaces := ["Task"],
       methods := [{ name := "stop" }] }]

theorem targets_of_classes_repos :
    (ofCodebase twoRepos).isInterface "Repo" = true ∧ twoRepos.Unmistaken "Repo" ∧
      "JpaRepo.find" ∈ (ofCodebase twoRepos).targets "Repo" "find" ∧
      "Unrelated.find" ∉ (ofCodebase twoRepos).targets "Repo" "find" := by
  have hinterface : (ofCodebase twoRepos).isInterface "Repo" = true := by decide +kernel
  have hunmistaken : twoRepos.Unmistaken "Repo" := .inl (by decide)
  have hjpa := (targets_of_classes twoRepos "Repo" "find" "JpaRepo" hinterface).2
    (by decide) hunmistaken
  have hunrelated := (targets_of_classes twoRepos "Repo" "find" "Unrelated" hinterface).2
    (by decide) hunmistaken
  exact ⟨hinterface, hunmistaken, hjpa.mpr (by decide), mt hunrelated.mp (by decide)⟩

theorem targets_stray :
    ((ofCodebase twoRepos).isInterface "org.other.Repo" = true ∧
      "JpaRepo.find" ∈ (ofCodebase twoRepos).targets "org.other.Repo" "find" ∧
      ¬∃ c ∈ twoRepos.classes, c.name = "JpaRepo" ∧ twoRepos.Answers "org.other.Repo" "find" c) ∧
    ((ofCodebase twoJobs).isInterface "Task" = true ∧
      "Job.run" ∈ (ofCodebase twoJobs).targets "Task" "run" ∧
      (¬∃ c ∈ twoJobs.classes, c.name = "Job" ∧ twoJobs.Answers "Task" "run" c) ∧
      "Job.stop" ∉ (ofCodebase twoJobs).targets "Task" "stop" ∧
      ∃ c ∈ twoJobs.classes, c.name = "Job" ∧ twoJobs.Answers "Task" "stop" c) := by
  decide +kernel

end CallTrace
