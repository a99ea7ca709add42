import CallTrace.FactSource
import CallTrace.Proofs.Firsts

/-!
What is collected from a facts document. Every path counts once, by its first entry: its classes are
collected, or it is skipped. Entries that repeat a path add nothing, as the index holds the position
of the first.
-/

namespace CallTrace

namespace FactIndex

theorem get?_note (positions : SortedMap Nat) (entry : FileEntry) (i : Nat) (path : String) :
    (note positions (entry, i)).get? path =
      (positions.get? path).or (if entry.path = path then some i else none) := by
  rw [note]
  split
  · rename_i hnoted
    split
    · rename_i heq
      subst heq
      obtain ⟨first, hfirst⟩ := Option.isSome_iff_exists.mp hnoted
      rw [hfirst]
      rfl
    · rw [Option.or_none]
  · rename_i hnew
    rw [SortedMap.get?_insert]
    split
    · rename_i heq
      subst heq
      have hnone := Option.not_isSome_iff_eq_none.mp hnew
      simp [hnone]
    · rename_i hne
      rw [if_neg (Ne.symm hne), Option.or_none]

end FactIndex

namespace FactsDocument

/-- The index leads from a path to the position of its first entry. -/
theorem get?_positions (files : List FileEntry) (path : String) :
    (FactsDocument.index ⟨files⟩).positions.get? path =
      files.findIdx? fun entry => entry.path == path := by
  simp only [index]
  induction files using List.reverseRecOn with
  | nil => rfl
  | append_singleton files entry ih =>
      rw [List.zipIdx_append, List.foldl_append, List.zipIdx_cons, List.zipIdx_nil,
        List.foldl_cons, List.foldl_nil, FactIndex.get?_note, ih, List.findIdx?_append]
      by_cases heq : entry.path = path <;> simp [List.findIdx?_cons, heq]

theorem entry?_index (document : FactsDocument) (path : String) :
    document.index.entry? path = document.files.find? fun entry => entry.path == path := by
  rw [List.find?_eq_bind_findIdx?_getElem?, FactIndex.entry?, ← get?_positions]
  rfl

theorem isSome_findIdx?_path {files : List FileEntry} {path : String} :
    (files.findIdx? fun entry => entry.path == path).isSome = true ↔
      path ∈ files.map FileEntry.path := by
  simp [List.findIdx?_isSome]

/-- An entry stands where its path was noted just if no earlier one has the path. -/
theorem sourceFiles_index (document : FactsDocument) :
    document.index.sourceFiles = (document.files.map FileEntry.path).eraseDups := by
  obtain ⟨files⟩ := document
  simp only [FactIndex.sourceFiles, get?_positions]
  simp only [index]
  induction files using List.reverseRecOn with
  | nil => rfl
  | append_singleton files entry ih =>
      have hbefore : (files.zipIdx.filter fun e =>
            ((files ++ [entry]).findIdx? fun other => other.path == e.1.path) == some e.2) =
          files.zipIdx.filter fun e =>
            (files.findIdx? fun other => other.path == e.1.path) == some e.2 := by
        apply List.filter_congr
        intro e hmem
        have he : e.1 ∈ files := List.mem_of_getElem? (List.mem_zipIdx_iff_getElem?.mp hmem)
        obtain ⟨first, hfirst⟩ := Option.isSome_iff_exists.mp
          (isSome_findIdx?_path.mpr (List.mem_map_of_mem he))
        simp only [List.findIdx?_append, hfirst, Option.some_or]
      rw [List.zipIdx_append, List.filter_append, hbefore, List.map_append, ih, List.map_append,
        List.map_singleton, eraseDups_concat]
      simp only [List.zipIdx_cons, List.zipIdx_nil, List.findIdx?_append]
      cases hfirst : files.findIdx? fun other => other.path == entry.path with
      | some first =>
          have hlt : first < files.length := (List.findIdx?_eq_some_iff_getElem.mp hfirst).1
          have hseen : entry.path ∈ files.map FileEntry.path := by
            rw [← isSome_findIdx?_path, hfirst]
            rfl
          simp [hseen, hfirst, Nat.ne_of_lt hlt]
      | none =>
          have hnew : entry.path ∉ files.map FileEntry.path := by
            rw [← isSome_findIdx?_path, hfirst]
            simp
          simp [hnew, hfirst]

end FactsDocument

def FileEntry.placedClasses (entry : FileEntry) : List ClassDecl :=
  entry.classes.map fun c =>
    { c with filePath := if c.filePath = "" then entry.path else c.filePath }

theorem ClassDecl.withFile_eq (c : ClassDecl) (file : String) :
    c.withFile file = { c with filePath := if c.filePath = "" then file else c.filePath } := by
  unfold withFile
  by_cases hempty : c.filePath = "" <;> simp [hempty]

/-- A file that was filled in stays, also where it is filled in once more. -/
theorem ClassDecl.withFile_withFile (c : ClassDecl) (file : String) :
    (c.withFile file).withFile file = c.withFile file := by
  rw [withFile_eq, withFile_eq]
  by_cases hempty : c.filePath = "" <;> simp [hempty]

namespace FactsDocument

/-- The entries that count: the first of each path. -/
def counted (document : FactsDocument) : List FileEntry :=
  firstsBy FileEntry.path document.files

def readable (document : FactsDocument) : List FileEntry :=
  document.counted.filter fun entry => entry.error.isNone

def failing (document : FactsDocument) : List FileEntry :=
  document.counted.filter fun entry => entry.error.isSome

variable {document : FactsDocument} {ε : Type}

theorem entry?_of_mem_counted {entry : FileEntry} (h : entry ∈ document.counted) :
    document.index.entry? entry.path = some entry := by
  rw [entry?_index]
  exact mem_firstsBy.mp h

theorem map_path_counted (document : FactsDocument) :
    document.counted.map FileEntry.path = (document.files.map FileEntry.path).eraseDups :=
  map_firstsBy FileEntry.path document.files

theorem readable_append_failing_perm (document : FactsDocument) :
    (document.readable ++ document.failing).Perm document.counted := by
  have hfailing : document.failing =
      document.counted.filter fun entry => !entry.error.isNone := by
    simp only [failing, Option.not_isNone]
  rw [hfailing]
  exact List.filter_append_perm _ document.counted

theorem collectFile_of_entry? {entry : FileEntry} (h : document.index.entry? entry.path = some entry)
    (collected : Collected) :
    (document.source : FactSource ε).collectFile collected entry.path =
      match entry.error with
      | none => { collected with
          code := ⟨collected.code.classes ++ entry.placedClasses⟩ }
      | some _ => { collected with
          skippedFiles := collected.skippedFiles ++ [entry.path] } := by
  have hfacts : (document.source : FactSource ε).factsFor entry.path =
      document.index.factsFor entry.path := rfl
  rw [FactSource.collectFile, hfacts, FactIndex.factsFor, h]
  cases herror : entry.error with
  | some reason => simp only [herror]
  | none =>
      simp only [herror, List.map_map, FileEntry.placedClasses]
      congr 3
      apply List.map_congr_left
      intro c hc
      rw [Function.comp_apply, ClassDecl.withFile_withFile, ClassDecl.withFile_eq]

theorem foldl_collectFile {entries : List FileEntry}
    (hentries : ∀ entry ∈ entries, document.index.entry? entry.path = some entry)
    (collected : Collected) :
    (entries.map FileEntry.path).foldl (document.source : FactSource ε).collectFile collected =
      { code := ⟨collected.code.classes ++
          (entries.filter fun entry => entry.error.isNone).flatMap FileEntry.placedClasses⟩
        skippedFiles := collected.skippedFiles ++
          (entries.filter fun entry => entry.error.isSome).map FileEntry.path } := by
  induction entries generalizing collected with
  | nil => simp
  | cons entry rest ih =>
      obtain ⟨hentry, hrest⟩ := List.forall_mem_cons.mp hentries
      rw [List.map_cons, List.foldl_cons, collectFile_of_entry? hentry, ih hrest]
      cases herror : entry.error <;> simp [herror]

theorem collect_eq (document : FactsDocument) :
    (document.source : FactSource ε).collect =
      .ok { code := ⟨document.readable.flatMap FileEntry.placedClasses⟩
            skippedFiles := document.failing.map FileEntry.path } := by
  have hfiles : (document.source : FactSource ε).files =
      .ok (document.counted.map FileEntry.path) := by
    rw [map_path_counted, ← sourceFiles_index]
    rfl
  rw [FactSource.collect, hfiles]
  exact congrArg Except.ok (foldl_collectFile (fun _ => entry?_of_mem_counted) {})

theorem collect_congr {other : FactsDocument} (h : other.counted = document.counted) :
    (other.source : FactSource ε).collect = document.source.collect := by
  rw [collect_eq, collect_eq, readable, readable, failing, failing, h]

theorem paths_perm (document : FactsDocument) :
    (document.readable.map FileEntry.path ++ document.failing.map FileEntry.path).Perm
      (document.files.map FileEntry.path).eraseDups := by
  rw [← List.map_append, ← map_path_counted]
  exact document.readable_append_failing_perm.map FileEntry.path

/-- Collecting from a document always succeeds, and parts its paths. The first entry of each path
counts: if it has no error, its classes are collected in order, as they are but for the file of
those that name none; otherwise the path is skipped. So every path is collected from or skipped, and
that once, and an entry that repeats an earlier path makes no difference, whatever it says. -/
theorem collect_partitions (document : FactsDocument) :
    (document.counted.Sublist document.files ∧
      ∀ entry, entry ∈ document.counted ↔
        document.files.find? (fun e => e.path == entry.path) = some entry) ∧
    (document.source : FactSource ε).collect =
      .ok { code := ⟨document.readable.flatMap fun entry => entry.classes.map fun c =>
              { c with filePath := if c.filePath = "" then entry.path else c.filePath }⟩
            skippedFiles := document.failing.map fun entry => entry.path } ∧
    (document.readable.map FileEntry.path ++ document.failing.map FileEntry.path).Nodup ∧
    (∀ path, path ∈ document.readable.map FileEntry.path ++ document.failing.map FileEntry.path ↔
      ∃ entry ∈ document.files, entry.path = path) ∧
    ∀ before entry after, document.files = before ++ entry :: after →
      (∃ earlier ∈ before, earlier.path = entry.path) →
      ((⟨before ++ after⟩ : FactsDocument).source : FactSource ε).collect =
        document.source.collect := by
  refine ⟨⟨firstsBy_sublist _ _, fun entry => mem_firstsBy⟩, document.collect_eq, ?_, ?_, ?_⟩
  · exact document.paths_perm.nodup_iff.mpr (nodup_eraseDups _)
  · intro path
    rw [document.paths_perm.mem_iff, List.mem_eraseDups, List.mem_map]
  · intro before entry after hfiles hearlier
    apply collect_congr
    rw [counted, counted, hfiles]
    exact (firstsBy_skip (List.mem_map.mpr hearlier) after).symm

end FactsDocument

def retriedFiles : FactsDocument where
  files :=
    [{ path := "Api.java", classes := [{ name := "Api" }, { name := "Dto", filePath := "Dto.java" }] },
     { path := "Job.java", error := some "unexpected token" },
     { path := "Api.java", error := some "timeout" },
     { path := "Job.java", classes := [{ name := "Job" }] }]

theorem collect_partitions_retried :
    (retriedFiles.source : FactSource String).collect =
      .ok { code := ⟨[{ name := "Api", filePath := "Api.java" },
              { name := "Dto", filePath := "Dto.java" }]⟩
            skippedFiles := ["Job.java"] } ∧
    (∃ earlier ∈ retriedFiles.files.take 2, earlier.path = "Api.java") ∧
    ((⟨retriedFiles.files.take 2 ++ retriedFiles.files.drop 3⟩ : FactsDocument).source :
      FactSource String).collect = retriedFiles.source.collect := by
  obtain ⟨-, hcollect, -, -, hrepeated⟩ := retriedFiles.collect_partitions
  have hearlier : ∃ earlier ∈ retriedFiles.files.take 2, earlier.path = "Api.java" := by decide
  refine ⟨?_, hearlier, hrepeated _ _ (retriedFiles.files.drop 3) rfl hearlier⟩
  rw [hcollect]
  decide

end CallTrace
