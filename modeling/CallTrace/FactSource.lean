import CallTrace.Codebase
import CallTrace.SortedMap

/-! Sources of facts: they list files and give the classes of each, or fail on it. -/

namespace CallTrace

inductive FileFault where
  | parse (file reason : String)
  | unknownFile (file : String)
  | unreadable (file : String)
  deriving DecidableEq, Repr

namespace FileFault

def message : FileFault → String
  | .parse file reason => "failed to parse " ++ file ++ ": " ++ reason
  | .unknownFile file => "unknown source file: " ++ file
  | .unreadable _ => "I/O error"

end FileFault

structure FactSource (ε : Type) where
  /-- The files the source knows, in order. -/
  files : Except ε (List String)
  factsFor : String → Except FileFault (List ClassDecl)

/-- The classes of all files that gave any, and the files that failed. -/
structure Collected where
  code : Codebase := {}
  skippedFiles : List String := []
  deriving DecidableEq, Repr

namespace FactSource

def collectFile (source : FactSource ε) (collected : Collected) (file : String) : Collected :=
  match source.factsFor file with
  | .ok classes =>
      { collected with
        code := ⟨collected.code.classes ++ classes.map fun c => c.withFile file⟩ }
  | .error _ => { collected with skippedFiles := collected.skippedFiles ++ [file] }

/-- Gathers the classes of all files. A file that fails is skipped. -/
def collect (source : FactSource ε) : Except ε Collected :=
  source.files.map fun files => files.foldl source.collectFile {}

end FactSource

/-- What a facts document says about one file: its classes, or why it has none. -/
structure FileEntry where
  path : String
  classes : List ClassDecl := []
  error : Option String := none
  deriving DecidableEq, Repr

structure FactsDocument where
  files : List FileEntry := []
  deriving DecidableEq, Repr

/-- The entries of a facts document, with the position of the first entry of each path. -/
structure FactIndex where
  files : List FileEntry
  positions : SortedMap Nat

namespace FactIndex

/-- Notes the position of an entry, unless an earlier entry has its path. -/
def note (positions : SortedMap Nat) (entry : FileEntry × Nat) : SortedMap Nat :=
  if positions.contains entry.1.path then positions
  else positions.insert entry.1.path entry.2

def entry? (index : FactIndex) (path : String) : Option FileEntry :=
  (index.positions.get? path).bind fun i => index.files[i]?

/-- The paths of the entries that stand where their paths were noted. -/
def sourceFiles (index : FactIndex) : List String :=
  (index.files.zipIdx.filter fun entry =>
    index.positions.get? entry.1.path == some entry.2).map fun entry => entry.1.path

def factsFor (index : FactIndex) (file : String) : Except FileFault (List ClassDecl) :=
  match index.entry? file with
  | none => .error (.unknownFile file)
  | some entry =>
      match entry.error with
      | some reason => .error (.parse entry.path reason)
      | none => .ok (entry.classes.map fun c => c.withFile entry.path)

def source (index : FactIndex) : FactSource ε where
  files := .ok index.sourceFiles
  factsFor := index.factsFor

end FactIndex

namespace FactsDocument

def index (document : FactsDocument) : FactIndex where
  files := document.files
  positions := document.files.zipIdx.foldl FactIndex.note .empty

def factsFor (document : FactsDocument) : String → Except FileFault (List ClassDecl) :=
  document.index.factsFor

def source (document : FactsDocument) : FactSource ε :=
  document.index.source

end FactsDocument

end CallTrace
