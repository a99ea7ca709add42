import CallTrace.Hierarchy
import CallTrace.Proofs.Sort
import Mathlib.Data.List.Induction

/-!
What the hierarchy of a codebase knows, told by the classes themselves: under each name the first
class that has it, and under each interface the classes that list it, in order and each once.
-/

namespace CallTrace

namespace ClassDecl

theorem declares_iff {c : ClassDecl} {name : String} :
    c.declares name = true ↔ ∃ m ∈ c.methods, m.name = name := by
  simp [declares, method?, List.find?_isSome]

def Implements (c : ClassDecl) (key : String) : Prop :=
  c.name ≠ "" ∧ c.isInterface = false ∧ key ≠ "" ∧ ∃ i ∈ c.interfaces, TypeName.base i = key

instance (c : ClassDecl) (key : String) : Decidable (c.Implements key) :=
  inferInstanceAs (Decidable (_ ∧ _))

end ClassDecl

namespace Hierarchy

theorem type?_register (h : Hierarchy) (info : TypeInfo) (name : String) :
    (h.register info).type? name =
      (h.type? name).or (if info.name = name then some info else none) := by
  unfold register
  split
  · rename_i hknown
    by_cases heq : info.name = name
    · have hsome : (h.type? name).isSome = true := by
        rw [type?, List.isSome_find?, ← heq]
        exact hknown
      rw [Option.or_of_isSome hsome]
    · rw [if_neg heq, Option.or_none]
  · simp only [type?, List.find?_append, List.find?_singleton, beq_iff_eq]

theorem types_declareAll (h : Hierarchy) (className : String) (interfaces : List String) :
    (interfaces.foldl (fun h i => h.declare className i) h).types = h.types := by
  induction interfaces generalizing h with
  | nil => rfl
  | cons i rest ih =>
      rw [List.foldl_cons, ih, declare]
      split <;> rfl

theorem type?_addClass (h : Hierarchy) (c : ClassDecl) (name : String) :
    (h.addClass c).type? name =
      (h.type? name).or (if c.name ≠ "" ∧ c.name = name then some (.ofClass c) else none) := by
  by_cases hname : c.name = ""
  · simp [addClass, hname]
  · have htypes : (h.addClass c).types = (h.register (.ofClass c)).types := by
      rw [addClass, if_neg (by simpa using hname)]
      split
      · rfl
      · exact types_declareAll ..
    have hregister := type?_register h (.ofClass c) name
    rw [type?, htypes, ← type?, hregister]
    exact congrArg (h.type? name).or (if_congr (and_iff_right hname).symm rfl rfl)

theorem type?_ofCodebase (code : Codebase) (name : String) :
    (ofCodebase code).type? name =
      if name = "" then none else (code.findSimple? name).map .ofClass := by
  obtain ⟨classes⟩ := code
  simp only [ofCodebase, Codebase.findSimple?]
  induction classes using List.reverseRecOn with
  | nil => simp [type?]
  | append_singleton classes c ih =>
      rw [List.foldl_concat, type?_addClass, ih, List.find?_append, List.find?_singleton]
      by_cases hname : name = ""
      · have hnone : ¬(c.name ≠ "" ∧ c.name = name) := fun h => h.1 (h.2.trans hname)
        rw [if_pos hname, if_pos hname, if_neg hnone, Option.or_none]
      · rw [if_neg hname, if_neg hname, Option.map_or]
        by_cases hc : c.name = name
        · simp [hc, hname]
        · simp [hc]

def noteOnce (name : String) (names : List String) : List String :=
  if name ∈ names then names else names ++ [name]

theorem noteOnce_noteOnce (name : String) (names : List String) :
    noteOnce name (noteOnce name names) = noteOnce name names := by
  have hmem : name ∈ noteOnce name names := by
    unfold noteOnce
    split <;> simp_all
  rw [noteOnce, if_pos hmem]

theorem lookup_insertDeclared (key className : String) (table : List (String × List String))
    (k : String) :
    (insertDeclared key className table).lookup k =
      if k = key then some (noteOnce className ((table.lookup key).getD []))
      else table.lookup k := by
  induction table with
  | nil => exact lookup_cons_eq k (key, [className]) []
  | cons entry rest ih =>
      obtain ⟨first, classes⟩ := entry
      simp only [insertDeclared, beq_iff_eq]
      by_cases hfirst : first = key
      · subst hfirst
        by_cases hk : k = first <;> simp [lookup_cons_eq, noteOnce, hk]
      · rw [if_neg hfirst, lookup_cons_eq, ih, lookup_cons_eq, lookup_cons_eq,
          if_neg (Ne.symm hfirst)]
        by_cases hk : k = first
        · simp [hk, hfirst]
        · simp [hk]

theorem declaring_declare (h : Hierarchy) (className interface key : String) :
    (h.declare className interface).declaring key =
      if key ≠ "" ∧ TypeName.base interface = key then noteOnce className (h.declaring key)
      else h.declaring key := by
  unfold declare
  by_cases hbase : TypeName.base interface = ""
  · have hno : ¬(key ≠ "" ∧ TypeName.base interface = key) := fun hkey =>
      hkey.1 (hkey.2.symm.trans hbase)
    rw [if_pos (by simpa using hbase), if_neg hno]
  · rw [if_neg (by simpa using hbase), declaring, lookup_insertDeclared]
    by_cases hkey : key = TypeName.base interface
    · subst hkey
      simp [hbase, declaring]
    · simp [hkey, Ne.symm hkey, declaring]

theorem declaring_declareAll (h : Hierarchy) (className : String) (interfaces : List String)
    (key : String) :
    (interfaces.foldl (fun h i => h.declare className i) h).declaring key =
      if key ≠ "" ∧ ∃ i ∈ interfaces, TypeName.base i = key then
        noteOnce className (h.declaring key)
      else h.declaring key := by
  induction interfaces generalizing h with
  | nil => simp
  | cons i rest ih =>
      rw [List.foldl_cons, ih, declaring_declare]
      by_cases hkey : key = ""
      · simp [hkey]
      · by_cases hfirst : TypeName.base i = key <;>
          by_cases hrest : ∃ j ∈ rest, TypeName.base j = key <;>
          simp [hkey, hfirst, hrest, noteOnce_noteOnce]

theorem declaring_register (h : Hierarchy) (info : TypeInfo) (key : String) :
    (h.register info).declaring key = h.declaring key := by
  unfold register
  split <;> rfl

theorem declaring_addClass (h : Hierarchy) (c : ClassDecl) (key : String) :
    (h.addClass c).declaring key =
      if c.Implements key then noteOnce c.name (h.declaring key) else h.declaring key := by
  unfold addClass
  by_cases hname : c.name = ""
  · simp [hname, ClassDecl.Implements]
  · rw [if_neg (by simpa using hname)]
    cases hinterface : c.isInterface with
    | true => simp [hinterface, ClassDecl.Implements, declaring_register]
    | false =>
        simp [hname, hinterface, ClassDecl.Implements, declaring_declareAll, declaring_register]

theorem declaring_ofCodebase (code : Codebase) (key : String) :
    (ofCodebase code).declaring key =
      ((code.classes.filter fun c => c.Implements key).map fun c => c.name).eraseDups := by
  obtain ⟨classes⟩ := code
  simp only [ofCodebase]
  induction classes using List.reverseRecOn with
  | nil => rfl
  | append_singleton classes c ih =>
      rw [List.foldl_concat, declaring_addClass, ih, List.filter_append]
      by_cases hc : c.Implements key
      · rw [if_pos hc, noteOnce, List.filter_cons_of_pos (by simpa using hc), List.filter_nil,
          List.map_append, List.map_singleton, eraseDups_concat]
        simp only [List.mem_eraseDups]
      · simp [hc]

theorem mem_declaring {code : Codebase} {key name : String} :
    name ∈ (ofCodebase code).declaring key ↔
      ∃ c ∈ code.classes, c.Implements key ∧ c.name = name := by
  simp [declaring_ofCodebase, List.mem_eraseDups, and_assoc]

def IsListed (h : Hierarchy) (key : String) : Prop :=
  (h.declared.lookup key).isSome = true

theorem isListed_declare {h : Hierarchy} {className interface key : String} :
    (h.declare className interface).IsListed key ↔
      h.IsListed key ∨ key ≠ "" ∧ TypeName.base interface = key := by
  unfold declare IsListed
  by_cases hbase : TypeName.base interface = ""
  · have hno : ¬(key ≠ "" ∧ TypeName.base interface = key) := fun hkey =>
      hkey.1 (hkey.2.symm.trans hbase)
    rw [if_pos (by simpa using hbase), or_iff_left hno]
  · rw [if_neg (by simpa using hbase), lookup_insertDeclared]
    by_cases hkey : key = TypeName.base interface
    · subst hkey
      simp [hbase]
    · simp [hkey, Ne.symm hkey]

theorem isListed_declareAll {h : Hierarchy} {className : String} {interfaces : List String}
    {key : String} :
    (interfaces.foldl (fun h i => h.declare className i) h).IsListed key ↔
      h.IsListed key ∨ key ≠ "" ∧ ∃ i ∈ interfaces, TypeName.base i = key := by
  induction interfaces generalizing h with
  | nil => simp
  | cons i rest ih =>
      rw [List.foldl_cons, ih, isListed_declare, List.exists_mem_cons_iff, and_or_left, or_assoc]

theorem isListed_register {h : Hierarchy} {info : TypeInfo} {key : String} :
    (h.register info).IsListed key ↔ h.IsListed key := by
  unfold register
  split <;> rfl

theorem isListed_addClass {h : Hierarchy} {c : ClassDecl} {key : String} :
    (h.addClass c).IsListed key ↔ h.IsListed key ∨ c.Implements key := by
  unfold addClass
  by_cases hname : c.name = ""
  · simp [hname, ClassDecl.Implements]
  · rw [if_neg (by simpa using hname)]
    cases hinterface : c.isInterface with
    | true => simp [hinterface, ClassDecl.Implements, isListed_register]
    | false =>
        simp [hname, hinterface, ClassDecl.Implements, isListed_declareAll, isListed_register]

theorem isListed_ofCodebase {code : Codebase} {key : String} :
    (ofCodebase code).IsListed key ↔ ∃ c ∈ code.classes, c.Implements key := by
  obtain ⟨classes⟩ := code
  simp only [ofCodebase]
  induction classes using List.reverseRecOn with
  | nil => simp [IsListed]
  | append_singleton classes c ih =>
      rw [List.foldl_concat, isListed_addClass, ih]
      simp [or_and_right, exists_or]

/-- The first class with the name decides; a name that no class has is an interface if some class
implements it. -/
theorem isInterface_ofCodebase {code : Codebase} {name : String} :
    (ofCodebase code).isInterface name = true ↔
      (name ≠ "" ∧ ∃ d ∈ code.findSimple? name, d.isInterface = true) ∨
      code.findSimple? name = none ∧ ∃ c ∈ code.classes, c.Implements name := by
  have hlisted : ((ofCodebase code).declared.lookup name).isSome = true ↔
      ∃ c ∈ code.classes, c.Implements name := isListed_ofCodebase
  unfold isInterface
  rw [type?_ofCodebase]
  by_cases hname : name = ""
  · subst hname
    rw [if_pos rfl, hlisted]
    simp [ClassDecl.Implements]
  · rw [if_neg hname]
    cases code.findSimple? name with
    | none => simpa using hlisted
    | some d => simp [hname, TypeInfo.ofClass]

end Hierarchy

end CallTrace
