import CallTrace.CommandLine.Address
import CallTrace.CommandLine.Arguments
import CallTrace.CommandLine.Display

namespace CallTrace.CommandLine

inductive Outcome where
  | printed (text : String)
  | failed (message : String)
  | usage
  /-- The engine is to answer requests at an address. -/
  | serve (engine : Engine) (address : String)

def versionText : String := "callpath 0.1.0\n"

def helpText : String :=
  "Trace call paths from entry points to data access\n\n"
    ++ "Usage: callpath [OPTIONS] <INPUT> <COMMAND>\n"

namespace Invocation

/-- The settings of a run: those of the file, with what the arguments say put over them. -/
def settings (inv : Invocation) (files : Files) : Except EngineError Settings := do
  let base ← Settings.loadOrDefault files inv.settingsPath
  let settings :=
    { base with
      classifier := inv.classifier.getD base.classifier
      includeInterfaceEntryPoints :=
        inv.includeInterfaceEntryPoints || base.includeInterfaceEntryPoints
      port :=
        match inv.command with
        | .serve (some port) _ => port
        | _ => base.port }
  settings.check
  return settings

def engine (inv : Invocation) (files : Files) : Except EngineError Engine := do
  let settings ← inv.settings files
  if inv.snapshotInput then Engine.loadSnapshot files inv.input settings
  else Engine.loadFacts files inv.input settings

end Invocation

def print (json : Bool) (text : String) (value : Json.Value) : Outcome :=
  .printed (if json then jsonText value else text)

def printResult (result : Except EngineError String) : Outcome :=
  match result with
  | .ok text => .printed text
  | .error e => .failed e.summary

/-- Runs a command on a loaded engine. Only the snapshot command changes the files. -/
def runCommand (engine : Engine) (files : Files) (json : Bool) : Command → Outcome × Files
  | .summary => (print json (summaryText engine) (summaryJson engine), files)
  | .entryPoints => (print json (entryPointsText engine) engine.entryPointsReport, files)
  | .tree signature depth =>
      (printResult
        (if json then (engine.treeReport signature depth).map jsonText
        else (engine.tree signature depth).map CallTree.render), files)
  | .trees depth =>
      (printResult
        (if json then (engine.treesReport depth).map jsonText
        else (engine.trees depth).map treesText), files)
  | .cycles => (print json (cyclesText engine) engine.cyclesReport, files)
  | .relations => (print json (relationsText engine) engine.relationsReport, files)
  | .snapshot out depth =>
      let (result, files) := engine.saveSnapshot files out depth
      (printResult (result.map (snapshotText out)), files)
  | .serve _ host =>
      let address := host ++ ":" ++ toString engine.settings.port
      (if isHost host then .serve engine address
        else .failed ("Invalid listen address: " ++ address), files)

def runInvocation (inv : Invocation) (files : Files) : Outcome × Files :=
  match inv.engine files with
  | .error e => (.failed e.summary, files)
  | .ok engine => runCommand engine files inv.json inv.command

def run (args : List String) (files : Files) : Outcome × Files :=
  match Invocation.parse args with
  | .error .usage => (.usage, files)
  | .error .version => (.printed versionText, files)
  | .error .help => (.printed helpText, files)
  | .ok inv => runInvocation inv files

end CallTrace.CommandLine
