import CallTrace.Dispatch
import CallTrace.Proofs.Firsts
import CallTrace.Proofs.Text.Dotted

/-!
Entry points before and after dispatch. Each one that is told is replaced by one for every type that
answers its method, and of all that come out the first of each signature stays. What holds of entry
points after dispatch follows from this.
-/

namespace CallTrace

namespace EntryPoint

def Distinct (entries : List EntryPoint) : Prop :=
  (entries.map fun entry => entry.signature).Nodup

def Names (entries : List EntryPoint) (s : Signature) : Prop :=
  ∃ entry ∈ entries, entry.signature = s

theorem firstBySignature_eq (entries : List EntryPoint) :
    firstBySignature entries =
      entries.eraseDupsBy fun entry e => entry.signature == e.signature :=
  (firstsBy_eq_foldl EntryPoint.signature entries).symm

theorem mem_of_mem_firstBySignature {entries : List EntryPoint} {e : EntryPoint}
    (h : e ∈ firstBySignature entries) : e ∈ entries := by
  rw [firstBySignature_eq] at h
  exact (firstsBy_sublist EntryPoint.signature entries).mem h

theorem distinct_firstBySignature (entries : List EntryPoint) :
    Distinct (firstBySignature entries) := by
  rw [firstBySignature_eq]
  exact nodup_map_firstsBy EntryPoint.signature entries

theorem names_firstBySignature {entries : List EntryPoint} {s : Signature} :
    Names (firstBySignature entries) s ↔ Names entries s := by
  have hnames : ∀ entries, Names entries s ↔ s ∈ entries.map EntryPoint.signature := by
    intro entries
    exact List.mem_map.symm
  rw [hnames, hnames, firstBySignature_eq]
  exact mem_map_firstsBy

def movedTo (entry : EntryPoint) (info : TypeInfo) : EntryPoint where
  kind := entry.kind
  path := entry.path
  signature := Signature.join info.name entry.method
  className := info.name
  filePath := info.filePath

end EntryPoint

namespace Hierarchy

variable {h : Hierarchy}

def answering (h : Hierarchy) (interface method : String) : List TypeInfo :=
  if h.isInterface interface then
    ((h.implementors interface).filterMap h.type?).filter fun info => info.methods.contains method
  else []

theorem name_of_type? {name : String} {info : TypeInfo} (hinfo : h.type? name = some info) :
    info.name = name := by
  simpa using List.find?_some hinfo

theorem type?_of_mem_answering {interface method : String} {info : TypeInfo}
    (hinfo : info ∈ h.answering interface method) : h.type? info.name = some info := by
  unfold answering at hinfo
  split at hinfo
  · obtain ⟨name, -, hname⟩ := List.mem_filterMap.mp (List.mem_filter.mp hinfo).1
    rw [name_of_type? hname]
    exact hname
  · exact absurd hinfo List.not_mem_nil

theorem map_declares (names : List String) (method : String) :
    (names.filter fun name => h.declares name method).map (fun name => Signature.join name method) =
      ((names.filterMap h.type?).filter fun info => info.methods.contains method).map
        fun info => Signature.join info.name method := by
  induction names with
  | nil => rfl
  | cons name rest ih =>
      cases hinfo : h.type? name with
      | none => simpa [declares, hinfo] using ih
      | some info =>
          have hdeclares : h.declares name method = info.methods.contains method := by
            rw [declares, hinfo]
          rw [List.filterMap_cons_some hinfo, List.filter_cons, List.filter_cons, hdeclares]
          split
          · rw [List.map_cons, List.map_cons, ih, name_of_type? hinfo]
          · exact ih

theorem targets_eq (h : Hierarchy) (interface method : String) :
    h.targets interface method =
      (h.answering interface method).map fun info => Signature.join info.name method := by
  unfold targets answering
  split
  · exact map_declares (h.implementors interface) method
  · rfl

theorem retarget_join (entry : EntryPoint) {info : TypeInfo}
    (hinfo : h.type? info.name = some info) :
    h.retarget entry (Signature.join info.name entry.method) = entry.movedTo info := by
  have howner : Signature.owner? (Signature.join info.name entry.method) = some info.name :=
    Signature.owner?_join info.name (Signature.not_mem_method entry.signature)
  have hfile : h.file? info.name = some info.filePath := by rw [file?, hinfo]; rfl
  rw [retarget, howner, Option.getD_some, hfile, Option.getD_some]
  rfl

def replacements (h : Hierarchy) (keep : Bool) (entry : EntryPoint) : List EntryPoint :=
  if h.targets entry.className entry.method = [] then [entry]
  else
    (h.answering entry.className entry.method).map entry.movedTo ++
      (if keep then [entry] else [])

/-- What stands for an entry point after dispatch: the implementations of its method, and the entry
point itself if it has none or is kept. -/
def StandsFor (h : Hierarchy) (keep : Bool) (entry : EntryPoint) (s : Signature) : Prop :=
  s ∈ h.targets entry.className entry.method ∨
    (keep = true ∨ h.targets entry.className entry.method = []) ∧ entry.signature = s

def ComesFrom (h : Hierarchy) (declared : List EntryPoint) (entry : EntryPoint) : Prop :=
  ∃ told ∈ declared, entry = told ∨
    ∃ target ∈ h.targets told.className told.method, entry = h.retarget told target

theorem map_retarget (h : Hierarchy) (entry : EntryPoint) :
    (h.targets entry.className entry.method).map (h.retarget entry) =
      (h.answering entry.className entry.method).map entry.movedTo := by
  rw [targets_eq, List.map_map]
  apply List.map_congr_left
  intro info hinfo
  exact retarget_join entry (type?_of_mem_answering hinfo)

theorem eq_or_retarget_of_mem_replacements {keep : Bool} {told entry : EntryPoint}
    (hentry : entry ∈ h.replacements keep told) :
    entry = told ∨ ∃ target ∈ h.targets told.className told.method,
      entry = h.retarget told target := by
  rw [replacements, ← map_retarget] at hentry
  split at hentry
  · exact .inl (List.mem_singleton.mp hentry)
  · rcases List.mem_append.mp hentry with hmoved | hkept
    · obtain ⟨target, htarget, rfl⟩ := List.mem_map.mp hmoved
      exact .inr ⟨target, htarget, rfl⟩
    · cases keep with
      | true => exact .inl (List.mem_singleton.mp hkept)
      | false => exact absurd hkept List.not_mem_nil

theorem names_replacements {keep : Bool} {entry : EntryPoint} {s : Signature} :
    EntryPoint.Names (h.replacements keep entry) s ↔ h.StandsFor keep entry s := by
  rw [replacements, StandsFor, ← map_retarget]
  by_cases hnone : h.targets entry.className entry.method = []
  · simp [EntryPoint.Names, hnone]
  · cases keep <;> simp [EntryPoint.Names, retarget, hnone, or_and_right, exists_or]

theorem expandEntryPoint_entries (h : Hierarchy) (keep : Bool)
    (state : List EntryPoint × DispatchReport) (entry : EntryPoint) :
    (h.expandEntryPoint keep state entry).1 =
      (h.replacements keep entry).foldl EntryPoint.insertNew state.1 := by
  rw [expandEntryPoint, replacements, ← map_retarget]
  cases h.targets entry.className entry.method with
  | nil => rfl
  | cons target rest =>
      rw [if_neg (List.cons_ne_nil _ _), List.foldl_append]
      cases keep <;> rfl

theorem expandEntryPoints_entries (h : Hierarchy) (keep : Bool) (told : List EntryPoint)
    (report : DispatchReport) :
    (h.expandEntryPoints keep told report).1 =
      EntryPoint.firstBySignature (told.flatMap (h.replacements keep)) := by
  have hfold : ∀ state : List EntryPoint × DispatchReport,
      (told.foldl (h.expandEntryPoint keep) state).1 =
        (told.flatMap (h.replacements keep)).foldl EntryPoint.insertNew state.1 := by
    induction told with
    | nil =>
        intro state
        rfl
    | cons entry rest ih =>
        intro state
        rw [List.foldl_cons, ih, expandEntryPoint_entries, List.flatMap_cons, List.foldl_append]
  exact hfold ([], report)

def missesEntry (h : Hierarchy) (entry : EntryPoint) : Bool :=
  h.isInterface entry.className && (h.targets entry.className entry.method).isEmpty

theorem expandEntryPoint_report (h : Hierarchy) (keep : Bool)
    (state : List EntryPoint × DispatchReport) (entry : EntryPoint) :
    (h.expandEntryPoint keep state entry).2 =
      { state.2 with
        expandedEntryPoints := state.2.expandedEntryPoints +
          (h.targets entry.className entry.method).length
        misses := state.2.misses + (h.missesEntry entry).toNat } := by
  rw [expandEntryPoint, missesEntry]
  cases h.targets entry.className entry.method with
  | nil => cases h.isInterface entry.className <;> simp
  | cons target rest => simp

theorem expandEntryPoints_report (h : Hierarchy) (keep : Bool) (told : List EntryPoint)
    (report : DispatchReport) :
    (h.expandEntryPoints keep told report).2 =
      { report with
        expandedEntryPoints := report.expandedEntryPoints +
          (told.flatMap fun entry => h.targets entry.className entry.method).length
        misses := report.misses + told.countP h.missesEntry } := by
  unfold expandEntryPoints
  induction told using List.reverseRecOn with
  | nil => rfl
  | append_singleton told entry ih =>
      rw [List.foldl_concat, expandEntryPoint_report, ih, List.countP_append,
        List.countP_singleton, List.flatMap_append, List.flatMap_singleton, List.length_append]
      cases h.missesEntry entry <;> simp [Nat.add_assoc]

section Expanded

variable {keep : Bool} {told : List EntryPoint} {report : DispatchReport}

theorem distinct_expandEntryPoints (h : Hierarchy) (keep : Bool) (told : List EntryPoint)
    (report : DispatchReport) : EntryPoint.Distinct (h.expandEntryPoints keep told report).1 := by
  rw [expandEntryPoints_entries]
  exact EntryPoint.distinct_firstBySignature _

theorem names_expandEntryPoints {s : Signature} :
    EntryPoint.Names (h.expandEntryPoints keep told report).1 s ↔
      ∃ entry ∈ told, h.StandsFor keep entry s := by
  rw [expandEntryPoints_entries, EntryPoint.names_firstBySignature]
  simp only [← names_replacements, EntryPoint.Names, List.mem_flatMap]
  constructor
  · rintro ⟨e, ⟨entry, hentry, he⟩, rfl⟩
    exact ⟨entry, hentry, e, he, rfl⟩
  · rintro ⟨entry, hentry, e, he, rfl⟩
    exact ⟨e, ⟨entry, hentry, he⟩, rfl⟩

theorem comesFrom_expandEntryPoints {entry : EntryPoint}
    (hentry : entry ∈ (h.expandEntryPoints keep told report).1) : h.ComesFrom told entry := by
  rw [expandEntryPoints_entries] at hentry
  obtain ⟨source, hsource, hentry⟩ :=
    List.mem_flatMap.mp (EntryPoint.mem_of_mem_firstBySignature hentry)
  exact ⟨source, hsource, eq_or_retarget_of_mem_replacements hentry⟩

end Expanded

/-- Dispatch loses and invents no entry point. The targets of an interface method are on types that
the hierarchy knows. Every entry point told is replaced by one on each of them, with its kind and
path and the name and file of the type, and by itself if it is kept or has no targets. Of these the
first of each signature stays; so no signature is twice, and none is lost but those that make way for
all their targets. -/
theorem entry_points_replaced (h : Hierarchy) (keep : Bool) (told : List EntryPoint)
    (report : DispatchReport) :
    (∀ interface method,
      h.targets interface method =
        (h.answering interface method).map (fun info => Signature.join info.name method) ∧
      ∀ info ∈ h.answering interface method, h.type? info.name = some info) ∧
    (h.expandEntryPoints keep told report).1 =
      (told.flatMap (h.replacements keep)).eraseDupsBy
        (fun entry e => entry.signature == e.signature) ∧
    EntryPoint.Distinct (h.expandEntryPoints keep told report).1 ∧
    ∀ entry ∈ told,
      (keep = true ∨ h.targets entry.className entry.method = [] →
        EntryPoint.Names (h.expandEntryPoints keep told report).1 entry.signature) ∧
      ∀ target ∈ h.targets entry.className entry.method,
        EntryPoint.Names (h.expandEntryPoints keep told report).1 target := by
  refine ⟨?_, ?_, distinct_expandEntryPoints h keep told report, ?_⟩
  · intro interface method
    exact ⟨targets_eq h interface method, fun info => type?_of_mem_answering⟩
  · rw [expandEntryPoints_entries, EntryPoint.firstBySignature_eq]
  · intro entry hentry
    constructor
    · intro hstays
      exact names_expandEntryPoints.mpr ⟨entry, hentry, .inr ⟨hstays, rfl⟩⟩
    · intro target htarget
      exact names_expandEntryPoints.mpr ⟨entry, hentry, .inl htarget⟩

example :
    let close : List MethodDecl := [{ name := "close" }]
    let code : Codebase :=
      { classes :=
          [{ name := "Reader", isInterface := true, methods := close },
           { name := "Writer", isInterface := true, methods := close },
           { name := "Disk", filePath := "Disk.java", interfaces := ["Writer", "Reader"],
             methods := close }] }
    let told := ["Reader", "Disk", "Writer"].map fun name =>
      EntryPoint.ofMethod "PUT" ("/" ++ name) name "close" (name ++ ".java")
    ((ofCodebase code).expandEntryPoints true told {}).1 =
      [.ofMethod "PUT" "/Reader" "Disk" "close" "Disk.java",
       .ofMethod "PUT" "/Reader" "Reader" "close" "Reader.java",
       .ofMethod "PUT" "/Writer" "Writer" "close" "Writer.java"] := by
  decide

end Hierarchy

end CallTrace
