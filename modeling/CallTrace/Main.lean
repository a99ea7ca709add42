import CallTrace.CommandLine

namespace CallTrace.CommandLine

/-- Puts a file into the store, with the directories it needs. -/
def place (files : Files) (path : String) (content : ByteArray) : Files :=
  let (_, files) :=
    if Files.parent path == "" then (.ok (), files) else files.makeDirectories (Files.parent path)
  (files.write path content).toOption.getD files

/-- Takes what is at a path of the disk into the store; a path that cannot be opened is left out,
and one that can be opened but not read is a directory. -/
def fetch (files : Files) (path : String) : IO Files := do
  try
    return place files path (← IO.FS.readBinFile path)
  catch _ =>
    try
      let _ ← IO.FS.Handle.mk path .read
      return (files.makeDirectories path).2
    catch _ => return files

/-- Writes a file of the store to disk, with the directories it needs. -/
def store (files : Files) (path : String) : IO Unit := do
  if let .ok content := files.read path then
    if Files.parent path != "" then IO.FS.createDirAll (Files.parent path)
    IO.FS.writeBinFile path content

/-- The files a run works on: its input, its settings, and what it may write over. -/
def fetchAll (args : List String) : IO Files := do
  match Invocation.parse args with
  | .error _ => return {}
  | .ok inv =>
      let out :=
        match inv.command with
        | .snapshot out _ => some out
        | _ => none
      ([inv.input] ++ inv.settingsPath.toList ++ out.toList).foldlM fetch {}

/-- Writes what a run has changed. -/
def storeAll (args : List String) (files : Files) : IO Unit := do
  match Invocation.parse args with
  | .ok { command := .snapshot out _, .. } => store files out
  | _ => return

def runOnDisk (args : List String) : IO UInt32 := do
  match run args (← fetchAll args) with
  | (.printed text, files) =>
      storeAll args files
      IO.print text
      return 0
  | (.failed message, _) =>
      IO.eprintln ("Error: " ++ message)
      return 1
  | (.usage, _) =>
      IO.eprintln helpText
      return 2
  | (.serve _ address, _) =>
      IO.eprintln ("Error: cannot listen on " ++ address)
      return 1

end CallTrace.CommandLine

def main (args : List String) : IO UInt32 :=
  CallTrace.CommandLine.runOnDisk args
