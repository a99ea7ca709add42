import CallTrace.CallTree.Render
import CallTrace.CallTree.Walk
import CallTrace.Cycle
import CallTrace.Dispatch
import CallTrace.Snapshot.Restore

/-! Analyses: a finished graph with its entry points, and the questions it answers. -/

namespace CallTrace

/-- Counts kept from building a graph. -/
structure BuildSummary where
  classes : Nat := 0
  methods : Nat := 0
  nodes : Nat := 0
  edges : Nat := 0
  resolvedCalls : Nat := 0
  heuristicCalls : Nat := 0
  skippedCalls : Nat := 0
  skippedClasses : Nat := 0
  skippedFiles : Nat := 0
  entryPoints : Nat := 0
  dispatch : DispatchReport := {}
  deriving DecidableEq, Repr

structure Analysis where
  graph : CallGraph
  entryPoints : List EntryPoint
  summary : BuildSummary
  deriving DecidableEq, Repr

/-- Why a question has no answer. -/
inductive QueryError where
  | unknownSignature (signature : Signature)
  | depthTooGreat (depth : Nat)
  deriving DecidableEq, Repr

/-- The deepest tree that may be asked for. -/
def maxTreeDepth : Nat := 256

namespace QueryError

def message : QueryError → String
  | .unknownSignature signature => "signature not found in call graph: " ++ signature
  | .depthTooGreat depth =>
      "invalid parameter: max_depth " ++ toString depth ++ " exceeds " ++ toString maxTreeDepth

end QueryError

namespace CallGraph

/-- The call tree below a signature, with the entry point it belongs to. -/
def trace (g : CallGraph) (root : Signature) (maxDepth : Nat) (entry : Option EntryPoint) :
    Except QueryError CallTree :=
  match g.tree? root maxDepth with
  | some tree => .ok { tree with entryPoint := entry }
  | none => .error (.unknownSignature root)

end CallGraph

namespace Analysis

def checkDepth (depth : Nat) : Except QueryError Unit :=
  if depth > maxTreeDepth then .error (.depthTooGreat depth) else .ok ()

def entryPoint? (a : Analysis) (s : Signature) : Option EntryPoint :=
  a.entryPoints.find? fun entry => entry.signature == s

def entryTree (a : Analysis) (entry : EntryPoint) (maxDepth : Nat) :
    Except QueryError CallTree := do
  checkDepth maxDepth
  a.graph.trace entry.signature maxDepth (some entry)

/-- The tree below any method, with its entry point if it is one. -/
def tree (a : Analysis) (s : Signature) (maxDepth : Nat) : Except QueryError CallTree := do
  checkDepth maxDepth
  a.graph.trace s maxDepth (a.entryPoint? s)

/-- The trees of all entry points in order; those not in the graph are passed over. -/
def trees (a : Analysis) (maxDepth : Nat) : Except QueryError (List CallTree) := do
  checkDepth maxDepth
  return a.entryPoints.filterMap fun entry =>
    (a.graph.trace entry.signature maxDepth (some entry)).toOption

def cycles (a : Analysis) : List Cycle :=
  a.graph.cycles

def relations (a : Analysis) : List CallEdge :=
  a.graph.sortedEdges

def save (a : Analysis) (maxDepth : Nat) : Except QueryError Snapshot := do
  let trees ← a.trees maxDepth
  return .capture maxDepth a.entryPoints trees a.graph

def restore (snapshot : Snapshot) : Except SnapshotError Analysis := do
  let graph ← snapshot.restoreGraph
  return {
    graph
    entryPoints := snapshot.entryPoints
    summary :=
      { nodes := graph.nodes.length
        edges := graph.arcs.length
        entryPoints := snapshot.entryPoints.length } }

end Analysis

end CallTrace
