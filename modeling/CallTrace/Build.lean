import CallTrace.Analysis
import CallTrace.Classifier
import CallTrace.FactSource

/-!
Building an analysis from facts: a node for each declared method, an edge for each call that can
be read, edges and entry points for implementations of interfaces, and layers last. The passes
count what they do as they go.
-/

namespace CallTrace

namespace Codebase

/-- A raw call with its caller, resolved if there is anything to resolve. -/
structure RawCall where
  caller : Signature
  resolution : Option Resolution
  deriving DecidableEq, Repr

def callsOf (code : Codebase) (c : ClassDecl) (m : MethodDecl) : List RawCall :=
  let scope := code.scope c.name m
  m.calls.map fun raw => ⟨Signature.join c.name m.name, code.resolve scope raw⟩

end Codebase

namespace Build

def fileOrUnknown (file : String) : String :=
  if file == "" then unknownText else file

/-- What the first passes hand on: the graph so far, the calls that were resolved, and the counts. -/
structure State where
  graph : CallGraph := .empty
  sites : List CallSite := []
  summary : BuildSummary := {}
  deriving DecidableEq, Repr

def addMethod (c : ClassDecl) (g : CallGraph) (m : MethodDecl) : CallGraph :=
  if Text.isBlank m.name then g
  else g.insertNode ⟨Signature.join c.name m.name, c.name, fileOrUnknown c.filePath, .unknown⟩

def addClass (state : State) (c : ClassDecl) : State :=
  let summary := state.summary
  if Text.isBlank c.name then
    { state with summary := { summary with skippedClasses := summary.skippedClasses + 1 } }
  else { state with graph := c.methods.foldl (addMethod c) state.graph }

/-- Adds the edge of a call; a callee with a known class gets that class and its file. -/
def addCall (h : Hierarchy) (g : CallGraph) (site : CallSite) : CallGraph :=
  let g :=
    match site.resolution with
    | .resolved owner _ =>
        g.insertNode
          ⟨site.resolution.signature, owner, fileOrUnknown ((h.file? owner).getD unknownText),
            .unknown⟩
    | .heuristic _ => g
  g.link site.caller site.resolution.signature

def countCall (summary : BuildSummary) : Option Resolution → BuildSummary
  | none => { summary with skippedCalls := summary.skippedCalls + 1 }
  | some (.resolved _ _) => { summary with resolvedCalls := summary.resolvedCalls + 1 }
  | some (.heuristic _) => { summary with heuristicCalls := summary.heuristicCalls + 1 }

def takeCall (h : Hierarchy) (state : State) (call : Codebase.RawCall) : State :=
  let summary := countCall state.summary call.resolution
  match call.resolution with
  | none => { state with summary }
  | some resolution =>
      let site : CallSite := ⟨call.caller, resolution⟩
      { graph := addCall h state.graph site, sites := state.sites ++ [site], summary }

def takeClass (code : Codebase) (h : Hierarchy) (state : State) (c : ClassDecl) : State :=
  (c.methods.filter fun m => !Text.isBlank m.name).foldl
    (fun state m => (code.callsOf c m).foldl (takeCall h) state) state

/-- A node for each declared method, and then an edge for each call. -/
def wire (code : Codebase) (h : Hierarchy) : State :=
  let summary : BuildSummary := { classes := code.classes.length, methods := code.methodCount }
  let declared := code.classes.foldl addClass { summary }
  (code.classes.filter fun c => !Text.isBlank c.name).foldl (takeClass code h) declared

def addEntryPoint (g : CallGraph) (entry : EntryPoint) : CallGraph :=
  g.insertNode ⟨entry.signature, entry.className, fileOrUnknown entry.filePath, .unknown⟩

/-- Sets the layers that a classifier gives; nodes without a known class keep theirs. -/
def classify (classifier : Classifier) (code : Codebase) (g : CallGraph) : CallGraph :=
  (g.nodes.filter fun n => n.className != unknownText).foldl
    (fun g n =>
      g.setLayer n.signature (classifier.layerOf n.className (code.find? n.className) n.method)) g

end Build

/-- The analysis of a codebase under a classifier, or without layers and entry points. With `keep`
the entry points of interfaces stay beside those of their implementations. -/
def Codebase.analyse (code : Codebase) (classifier : Option Classifier) (keep : Bool) : Analysis :=
  let hierarchy := Hierarchy.ofCodebase code
  let wired := Build.wire code hierarchy
  let (g, callReport) := hierarchy.expandCalls wired.graph wired.sites
  let declared := (classifier.map fun c => c.entryPoints code).getD []
  let (entryPoints, report) := hierarchy.expandEntryPoints keep declared callReport
  let g := entryPoints.foldl Build.addEntryPoint g
  let g :=
    match classifier with
    | some c => Build.classify c code g
    | none => g
  { graph := g
    entryPoints
    summary :=
      { wired.summary with
        nodes := g.nodes.length
        edges := g.arcs.length
        entryPoints := entryPoints.length
        dispatch := report } }

/-- The analysis of collected facts, which also counts the files that were skipped. -/
def Collected.analyse (collected : Collected) (classifier : Option Classifier) (keep : Bool) :
    Analysis :=
  let a := collected.code.analyse classifier keep
  { a with summary := { a.summary with skippedFiles := collected.skippedFiles.length } }

end CallTrace
