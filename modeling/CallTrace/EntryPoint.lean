import CallTrace.Signature

/-! Entry points: methods a framework calls, with their route or trigger. -/

namespace CallTrace

structure EntryPoint where
  /-- The kind of entry: `GET`, `SCHEDULED`, `BATCH` and the like. -/
  kind : String
  /-- Route, trigger or job name; empty when there is none. -/
  path : String
  signature : Signature
  className : String
  filePath : String
  deriving DecidableEq, Repr

namespace EntryPoint

def ofMethod (kind path className method filePath : String) : EntryPoint :=
  { kind, path, signature := Signature.join className method, className, filePath }

/-- What an entry point is shown as: the kind, and the path if there is one. -/
def descriptor (entry : EntryPoint) : String :=
  if entry.path == "" then entry.kind else entry.kind ++ " " ++ entry.path

def method (entry : EntryPoint) : String :=
  Signature.method entry.signature

/-- Adds an entry unless an earlier one has its signature. -/
def insertNew (entries : List EntryPoint) (entry : EntryPoint) : List EntryPoint :=
  if entries.any fun e => e.signature == entry.signature then entries else entries ++ [entry]

/-- Keeps the first entry of every signature. -/
def firstBySignature (entries : List EntryPoint) : List EntryPoint :=
  entries.foldl insertNew []

end EntryPoint

end CallTrace
