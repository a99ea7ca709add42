import CallTrace.Build
import CallTrace.Codec.Facts
import CallTrace.Files
import CallTrace.Settings

/-! Engines: an analysis with the source it came from, so that it can be loaded again. -/

namespace CallTrace

open Json

inductive EngineError where
  | depthLimit (depth : Nat)
  | readSettings (path : String)
  | parseSettings (path : String)
  | openFacts (path : String)
  | mapFacts
  | decodeFacts
  | readSnapshot (path : String)
  | invalidSnapshot (path : String) (cause : SnapshotError)
  | restoreSnapshot (path : String) (cause : SnapshotError)
  | createDirectory (path : String)
  | writeSnapshot (path : String)
  | query (cause : QueryError)
  deriving DecidableEq, Repr

namespace EngineError

/-- What went wrong, then why, as far as it is known. -/
def chain : EngineError → List String
  | .depthLimit depth =>
      ["max_depth " ++ toString depth ++ " exceeds the limit of " ++ toString maxTreeDepth]
  | .readSettings path => ["Failed to read config file: " ++ path]
  | .parseSettings path => ["Failed to parse config file: " ++ path]
  | .openFacts path => ["Failed to open facts file: " ++ path]
  | .mapFacts => ["Failed to mmap facts file"]
  | .decodeFacts => ["Failed to decode facts JSON"]
  | .readSnapshot path => ["Failed to read snapshot file: " ++ path]
  | .invalidSnapshot path cause => ["Invalid snapshot file: " ++ path, cause.message]
  | .restoreSnapshot path cause => ["Failed to restore snapshot: " ++ path, cause.message]
  | .createDirectory path => ["Failed to create directory: " ++ path]
  | .writeSnapshot path => ["Failed to write snapshot file: " ++ path]
  | .query cause => [cause.message]

def summary (e : EngineError) : String :=
  e.chain.headD ""

def message (e : EngineError) : String :=
  String.intercalate ": " e.chain

end EngineError

namespace Settings

def check (settings : Settings) : Except EngineError Unit :=
  if settings.isValid then .ok () else .error (.depthLimit settings.maxDepth)

def load (files : Files) (path : String) : Except EngineError Settings :=
  match files.readText? path with
  | none => .error (.readSettings path)
  | some text =>
      match (Document.ofString text).decode decode with
      | .error _ => .error (.parseSettings path)
      | .ok settings => do
          settings.check
          return settings

def loadOrDefault (files : Files) : Option String → Except EngineError Settings
  | some path => load files path
  | none => .ok {}

end Settings

inductive Source where
  | facts (path : String)
  | snapshot (path : String)
  | prebuilt
  deriving DecidableEq, Repr

def readFacts (files : Files) (path : String) : Except EngineError FactsDocument :=
  match files.entry path with
  | .error _ => .error (.openFacts path)
  | .ok .directory => .error .mapFacts
  | .ok (.file content) =>
      match (Document.ofBytes content).decode FactsDocument.decode with
      | .error _ => .error .decodeFacts
      | .ok document => .ok document

/-- The analysis of a facts file under valid settings. -/
def analyseFacts (files : Files) (settings : Settings) (path : String) :
    Except EngineError Analysis := do
  settings.check
  let document ← readFacts files path
  let collected ← document.source.collect
  return collected.analyse settings.classifier.classifier? settings.includeInterfaceEntryPoints

def readSnapshot (files : Files) (path : String) : Except EngineError Snapshot :=
  match files.read path with
  | .error _ => .error (.readSnapshot path)
  | .ok content => (Snapshot.ofBytes content).mapError (.invalidSnapshot path)

def restoreFile (files : Files) (path : String) : Except EngineError Analysis := do
  let snapshot ← readSnapshot files path
  (Analysis.restore snapshot).mapError (.restoreSnapshot path)

namespace Source

/-- Loads an analysis from its source; a prebuilt one has nothing to load. -/
def load (files : Files) (settings : Settings) : Source → Except EngineError (Option Analysis)
  | .facts path => (analyseFacts files settings path).map some
  | .snapshot path => (restoreFile files path).map some
  | .prebuilt => .ok none

end Source

structure Engine where
  source : Source
  settings : Settings
  analysis : Analysis
  deriving DecidableEq, Repr

namespace Engine

def ofAnalysis (analysis : Analysis) (settings : Settings) : Engine :=
  ⟨.prebuilt, settings, analysis⟩

def loadFacts (files : Files) (path : String) (settings : Settings) : Except EngineError Engine :=
  (analyseFacts files settings path).map fun analysis => ⟨.facts path, settings, analysis⟩

def loadSnapshot (files : Files) (path : String) (settings : Settings) :
    Except EngineError Engine :=
  (restoreFile files path).map fun analysis => ⟨.snapshot path, settings, analysis⟩

/-- Puts a newly loaded analysis in the place of the old one. -/
def install (engine : Engine) : Option Analysis → Engine
  | some analysis => { engine with analysis }
  | none => engine

/-- Loads the source again. On a failure there is no new engine, and the old one stays in use. -/
def reload (files : Files) (engine : Engine) : Except EngineError Engine :=
  (engine.source.load files engine.settings).map engine.install

def depthOr (engine : Engine) (depth : Option Nat) : Nat :=
  depth.getD engine.settings.maxDepth

/-- The tree below a method; blanks around its signature do not count. -/
def tree (engine : Engine) (signature : String) (depth : Option Nat) :
    Except EngineError CallTree :=
  (engine.analysis.tree (Text.trim signature) (engine.depthOr depth)).mapError .query

def trees (engine : Engine) (depth : Option Nat) : Except EngineError (List CallTree) :=
  (engine.analysis.trees (engine.depthOr depth)).mapError .query

def snapshot (engine : Engine) (depth : Option Nat) : Except EngineError Snapshot :=
  (engine.analysis.save (engine.depthOr depth)).mapError .query

def writeSnapshotFile (files : Files) (path : String) (snapshot : Snapshot) :
    Except EngineError Unit × Files :=
  let directory := Files.parent path
  let (made, files) :=
    if directory == "" then (.ok (), files) else files.makeDirectories directory
  match made with
  | .error _ => (.error (.createDirectory directory), files)
  | .ok () =>
      match files.write path snapshot.toText.toUTF8 with
      | .ok files => (.ok (), files)
      | .error _ => (.error (.writeSnapshot path), files)

def saveSnapshot (engine : Engine) (files : Files) (path : String) (depth : Option Nat) :
    Except EngineError Snapshot × Files :=
  match engine.snapshot depth with
  | .error e => (.error e, files)
  | .ok snapshot =>
      let (written, files) := writeSnapshotFile files path snapshot
      (written.map fun _ => snapshot, files)

end Engine

end CallTrace
