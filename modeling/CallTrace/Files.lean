namespace CallTrace

/-- The names on the way from the top of the store. -/
abbrev Location := List String

inductive Stored where
  | file (content : ByteArray)
  | directory

inductive FileError where
  | notFound
  | isDirectory
  | notDirectory
  deriving DecidableEq, Repr

/-- What stands at each location; the top is always a directory. -/
structure Files where
  entries : List (Location × Stored) := []

namespace Files

def at? (files : Files) (location : Location) : Option Stored :=
  if location.isEmpty then some .directory else files.entries.lookup location

def set (files : Files) (location : Location) (entry : Stored) : Files :=
  ⟨(location, entry) :: files.entries.filter fun e => e.1 != location⟩

def components (path : String) : List String :=
  (path.toList.splitOn '/').map String.ofList

def stepTo (here : Location) (name : String) : Location :=
  if name == "" || name == "." then here
  else if name == ".." then here.dropLast
  else here ++ [name]

/-- Follows names from a location; every location on the way must be a directory. -/
def locateFrom (files : Files) : Location → List String → Except FileError Location
  | here, [] => .ok here
  | here, name :: rest =>
      match files.at? here with
      | some .directory => files.locateFrom (stepTo here name) rest
      | some (.file _) => .error .notDirectory
      | none => .error .notFound

def locate (files : Files) (path : String) : Except FileError Location :=
  if path == "" then .error .notFound else files.locateFrom [] (components path)

def entry (files : Files) (path : String) : Except FileError Stored := do
  match files.at? (← files.locate path) with
  | some entry => .ok entry
  | none => .error .notFound

def read (files : Files) (path : String) : Except FileError ByteArray := do
  match ← files.entry path with
  | .file content => .ok content
  | .directory => .error .isDirectory

/-- The content of a file as text; bytes that are no text count as a fault of the file. -/
def readText? (files : Files) (path : String) : Option String :=
  match files.read path with
  | .ok content => String.fromUTF8? content
  | .error _ => none

/-- Follows names and makes the directories that are missing. A fault leaves what was made. -/
def makeDirectoriesFrom (files : Files) : Location → List String → Except FileError Unit × Files
  | _, [] => (.ok (), files)
  | here, name :: rest =>
      let next := stepTo here name
      match files.at? next with
      | some .directory => files.makeDirectoriesFrom next rest
      | some (.file _) => (.error .notDirectory, files)
      | none => (files.set next .directory).makeDirectoriesFrom next rest

def makeDirectories (files : Files) (path : String) : Except FileError Unit × Files :=
  files.makeDirectoriesFrom [] (components path)

/-- Writes a file into a directory that exists. -/
def write (files : Files) (path : String) (content : ByteArray) : Except FileError Files := do
  let location ← files.locate path
  match files.at? location with
  | some .directory => .error .isDirectory
  | _ => .ok (files.set location (.file content))

def remove (files : Files) (path : String) : Files :=
  match files.locate path with
  | .ok location => ⟨files.entries.filter fun e => !location.isPrefixOf e.1⟩
  | .error _ => files

/-- Drops separators, and single dots between them, at the end of a path that is reversed. -/
def dropSeparators : List Char → List Char
  | '/' :: rest => dropSeparators rest
  | '.' :: '/' :: rest => dropSeparators rest
  | cs => cs

/-- The path of the directory something is in, as written; empty for a single name. -/
def parent (path : String) : String :=
  let last := dropSeparators path.toList.reverse
  String.ofList (dropSeparators (last.dropWhile (· != '/'))).reverse

end Files

end CallTrace
