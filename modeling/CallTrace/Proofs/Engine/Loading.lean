import CallTrace.Engine
import CallTrace.Proofs.Json.Accepted
import CallTrace.Proofs.Json.Reading
import CallTrace.Proofs.Snapshot.Faults

/-!
What loading needs to succeed, and so what makes it fail: for each way of loading, what it reads and
what it makes of that.
-/

namespace CallTrace

open Json

theorem mapError_eq_ok {x : Except ε α} {f : ε → δ} {a : α} :
    x.mapError f = .ok a ↔ x = .ok a := by
  cases x <;> simp [Except.mapError]

theorem Files.read_eq_ok {files : Files} {path : String} {content : ByteArray} :
    files.read path = .ok content ↔ files.entry path = .ok (.file content) := by
  rw [read, bind_eq_ok]
  constructor
  · rintro ⟨entry, hentry, hcontent⟩
    cases entry with
    | file => cases hcontent; exact hentry
    | directory => cases hcontent
  · intro hentry
    exact ⟨_, hentry, rfl⟩

theorem Settings.check_eq_ok {settings : Settings} :
    settings.check = .ok () ↔ settings.isValid = true := by
  unfold check
  split <;> simp_all

theorem readFacts_eq_ok {files : Files} {path : String} {document : FactsDocument} :
    readFacts files path = .ok document ↔
      ∃ content, files.entry path = .ok (.file content) ∧
        (Document.ofBytes content).decode FactsDocument.decode = .ok document := by
  unfold readFacts
  split
  · simp_all
  · simp_all
  · split <;> simp_all

def FactsDocument.collected (document : FactsDocument) : Collected :=
  document.index.sourceFiles.foldl (document.source : FactSource EngineError).collectFile {}

theorem analyseFacts_eq_ok {files : Files} {settings : Settings} {path : String}
    {analysis : Analysis} :
    analyseFacts files settings path = .ok analysis ↔
      settings.isValid = true ∧ ∃ document, readFacts files path = .ok document ∧
        document.collected.analyse settings.classifier.classifier?
          settings.includeInterfaceEntryPoints = analysis := by
  rw [analyseFacts, bind_eq_ok, ← Settings.check_eq_ok]
  constructor
  · rintro ⟨⟨⟩, hcheck, h⟩
    obtain ⟨document, hread, h⟩ := bind_eq_ok.mp h
    exact ⟨hcheck, document, hread, Except.ok.inj h⟩
  · rintro ⟨hcheck, document, hread, rfl⟩
    exact ⟨(), hcheck, bind_eq_ok.mpr ⟨document, hread, rfl⟩⟩

theorem Engine.loadFacts_eq_ok {files : Files} {path : String} {settings : Settings}
    {engine : Engine} :
    Engine.loadFacts files path settings = .ok engine ↔
      ∃ analysis, analyseFacts files settings path = .ok analysis ∧
        ⟨.facts path, settings, analysis⟩ = engine :=
  map_eq_ok

theorem Snapshot.ofBytes_eq_ok {content : ByteArray} {snapshot : Snapshot} :
    Snapshot.ofBytes content = .ok snapshot ↔
      (Document.ofBytes content).decode Snapshot.decode = .ok snapshot ∧
        snapshot.validate = .ok () := by
  unfold ofBytes ofDocument
  split
  · simp_all
  · rename_i decoded hdecode
    rw [bind_eq_ok, hdecode, Except.ok.injEq]
    constructor
    · rintro ⟨⟨⟩, hvalid, h⟩
      cases h
      exact ⟨rfl, hvalid⟩
    · rintro ⟨rfl, hvalid⟩
      exact ⟨(), hvalid, rfl⟩

theorem restoreFile_eq_ok {files : Files} {path : String} {analysis : Analysis} :
    restoreFile files path = .ok analysis ↔
      ∃ content snapshot, files.entry path = .ok (.file content) ∧
        Snapshot.ofBytes content = .ok snapshot ∧ Analysis.restore snapshot = .ok analysis := by
  rw [restoreFile, bind_eq_ok]
  constructor
  · rintro ⟨snapshot, hread, hrestore⟩
    unfold readSnapshot at hread
    split at hread
    · cases hread
    · rename_i content hcontent
      exact ⟨content, snapshot, Files.read_eq_ok.mp hcontent, mapError_eq_ok.mp hread,
        mapError_eq_ok.mp hrestore⟩
  · rintro ⟨content, snapshot, hentry, hread, hrestore⟩
    refine ⟨snapshot, ?_, mapError_eq_ok.mpr hrestore⟩
    rw [readSnapshot, Files.read_eq_ok.mpr hentry]
    exact mapError_eq_ok.mpr hread

theorem Engine.loadSnapshot_eq_ok {files : Files} {path : String} {settings : Settings}
    {engine : Engine} :
    Engine.loadSnapshot files path settings = .ok engine ↔
      ∃ analysis, restoreFile files path = .ok analysis ∧
        ⟨.snapshot path, settings, analysis⟩ = engine :=
  map_eq_ok

theorem map_eq_error {x : Except ε α} {f : α → β} {e : ε} :
    x.map f = .error e ↔ x = .error e := by
  cases x <;> simp [Except.map]

theorem exists_error_iff {x : Except ε α} : (∃ e, x = .error e) ↔ ¬ ∃ a, x = .ok a := by
  cases x <;> simp

namespace Source

/-- The files have nothing the source can be loaded from: there is no file, or the file is no
document of its kind, or it is a snapshot with a fault. -/
inductive Unloadable (files : Files) : Source → Prop where
  | noFacts {path : String} (h : ∀ content, files.entry path ≠ .ok (.file content)) :
      Unloadable files (.facts path)
  | malformedFacts {path : String} {content : ByteArray} {fault : Fault}
      (hcontent : files.entry path = .ok (.file content))
      (h : (Document.ofBytes content).decode FactsDocument.decode = .error fault) :
      Unloadable files (.facts path)
  | noSnapshot {path : String} (h : ∀ content, files.entry path ≠ .ok (.file content)) :
      Unloadable files (.snapshot path)
  | malformedSnapshot {path : String} {content : ByteArray} {fault : Fault}
      (hcontent : files.entry path = .ok (.file content))
      (h : (Document.ofBytes content).decode Snapshot.decode = .error fault) :
      Unloadable files (.snapshot path)
  | faultySnapshot {path : String} {content : ByteArray} {snapshot : Snapshot}
      (hcontent : files.entry path = .ok (.file content))
      (hread : (Document.ofBytes content).decode Snapshot.decode = .ok snapshot)
      (h : snapshot.Faulty) : Unloadable files (.snapshot path)

theorem facts_unloadable_iff {files : Files} {settings : Settings}
    (hsettings : settings.isValid = true) {path : String} :
    (∃ e, analyseFacts files settings path = .error e) ↔ (facts path).Unloadable files := by
  simp only [exists_error_iff, analyseFacts_eq_ok, readFacts_eq_ok]
  constructor
  · intro h
    by_cases hcontent : ∃ content, files.entry path = .ok (.file content)
    · obtain ⟨content, hcontent⟩ := hcontent
      cases hdecode : (Document.ofBytes content).decode FactsDocument.decode with
      | error fault => exact .malformedFacts hcontent hdecode
      | ok document =>
          exact absurd ⟨_, hsettings, document, ⟨content, hcontent, hdecode⟩, rfl⟩ h
    · exact .noFacts fun content hread => hcontent ⟨content, hread⟩
  · rintro hunloadable ⟨analysis, -, document, ⟨content, hcontent, hdecode⟩, -⟩
    cases hunloadable with
    | noFacts h => exact h content hcontent
    | malformedFacts hother h => simp_all

theorem snapshot_unloadable_iff {files : Files} {path : String} :
    (∃ e, restoreFile files path = .error e) ↔ (snapshot path).Unloadable files := by
  simp only [exists_error_iff, restoreFile_eq_ok, Snapshot.ofBytes_eq_ok]
  constructor
  · intro h
    by_cases hcontent : ∃ content, files.entry path = .ok (.file content)
    · obtain ⟨content, hcontent⟩ := hcontent
      cases hdecode : (Document.ofBytes content).decode Snapshot.decode with
      | error fault => exact .malformedSnapshot hcontent hdecode
      | ok snapshot =>
          refine .faultySnapshot hcontent hdecode ?_
          by_contra hfaultless
          obtain ⟨analysis, hrestore⟩ := Snapshot.restore_eq_ok_iff.mpr hfaultless
          have hvalid := (Snapshot.not_faulty_iff.mp hfaultless).1
          exact h ⟨analysis, content, snapshot, hcontent, ⟨hdecode, hvalid⟩, hrestore⟩
    · exact .noSnapshot fun content hread => hcontent ⟨content, hread⟩
  · rintro hunloadable ⟨analysis, content, snapshot, hcontent, ⟨hdecode, -⟩, hrestore⟩
    cases hunloadable with
    | noSnapshot h => exact h content hcontent
    | malformedSnapshot hother h => simp_all
    | faultySnapshot hother hread h =>
        have hfaultless := Snapshot.restore_eq_ok_iff.mp ⟨analysis, hrestore⟩
        simp_all

end Source

def Json.Value.facts (path : String) (classes : List ClassDecl) : Value :=
  .obj [("files", .arr [.obj [("path", .str path), ("classes", .list ClassDecl.toJson classes)]])]

def Files.single (content : ByteArray) : Files :=
  ⟨[(["facts.json"], .file content)]⟩

theorem Files.entry_single (content : ByteArray) :
    (Files.single content).entry "facts.json" = .ok (.file content) :=
  rfl

def Files.ofFacts (path : String) (classes : List ClassDecl) : Files :=
  .single (Value.facts path classes).pretty.toUTF8

def Engine.ofFacts (path : String) (classes : List ClassDecl) : Engine where
  source := .facts "facts.json"
  settings := {}
  analysis :=
    (FactsDocument.mk [{ path, classes }]).collected.analyse ClassifierChoice.composite.classifier?
      false

theorem analyseFacts_ofFacts {path : String} {classes : List ClassDecl}
    (h : FactsDocument.decode maxLevels (Value.facts path classes).reading =
      .ok ⟨[{ path, classes }]⟩) :
    analyseFacts (.ofFacts path classes) {} "facts.json" =
      .ok (Engine.ofFacts path classes).analysis := by
  have hread : readFacts (.ofFacts path classes) "facts.json" = .ok ⟨[{ path, classes }]⟩ := by
    refine readFacts_eq_ok.mpr ⟨(Value.facts path classes).pretty.toUTF8, Files.entry_single _, ?_⟩
    rw [Value.ofBytes_pretty, Document.decode, h]
    rfl
  exact analyseFacts_eq_ok.mpr ⟨rfl, _, hread, by rw [Engine.ofFacts]⟩

theorem Engine.loadFacts_ofFacts {path : String} {classes : List ClassDecl}
    (h : FactsDocument.decode maxLevels (Value.facts path classes).reading =
      .ok ⟨[{ path, classes }]⟩) :
    Engine.loadFacts (.ofFacts path classes) "facts.json" {} = .ok (.ofFacts path classes) :=
  Engine.loadFacts_eq_ok.mpr ⟨_, analyseFacts_ofFacts h, rfl⟩

end CallTrace
