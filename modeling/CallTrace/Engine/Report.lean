import CallTrace.Engine

namespace CallTrace

open Json

namespace DispatchReport

def toJson (report : DispatchReport) : Value :=
  .obj
    [("interface_calls", .num report.interfaceCalls),
     ("expanded_edges", .num report.expandedEdges),
     ("expanded_entry_points", .num report.expandedEntryPoints), ("misses", .num report.misses)]

end DispatchReport

namespace BuildSummary

def toJson (s : BuildSummary) : Value :=
  .obj
    [("classes", .num s.classes), ("methods", .num s.methods), ("nodes", .num s.nodes),
     ("edges", .num s.edges), ("resolved_calls", .num s.resolvedCalls),
     ("heuristic_calls", .num s.heuristicCalls), ("skipped_calls", .num s.skippedCalls),
     ("skipped_classes", .num s.skippedClasses), ("skipped_files", .num s.skippedFiles),
     ("entry_points", .num s.entryPoints), ("dispatch", s.dispatch.toJson)]

end BuildSummary

namespace Source

def path : Source → String
  | .facts path => path
  | .snapshot path => path
  | .prebuilt => ""

def kind : Source → String
  | .facts _ => "facts"
  | .snapshot _ => "snapshot"
  | .prebuilt => "prebuilt"

end Source

def countedJson (key : String) (f : α → Value) (items : List α) : Value :=
  .obj [("count", .num items.length), (key, .list f items)]

namespace CallTree

def report (maxDepth : Nat) (tree : CallTree) : Value :=
  .obj
    ([("signature", .str tree.signature)]
      ++ (tree.entryPoint.toList.map fun entry => ("entry_point", entry.toJson))
      ++ [("max_depth", .num maxDepth), ("node_count", .num tree.size),
          ("depth", .num tree.depth), ("tree", tree.toJson), ("rendered", .str tree.render)])

end CallTree

namespace Engine

def health (engine : Engine) : Value :=
  .obj
    [("source", .str engine.source.path), ("source_kind", .str engine.source.kind),
     ("node_count", .num engine.analysis.graph.nodes.length),
     ("edge_count", .num engine.analysis.graph.arcs.length),
     ("entry_point_count", .num engine.analysis.entryPoints.length)]

def summaryReport (engine : Engine) : Value :=
  engine.analysis.summary.toJson

def entryPointsReport (engine : Engine) : Value :=
  countedJson "entry_points" EntryPoint.toJson engine.analysis.entryPoints

def cyclesReport (engine : Engine) : Value :=
  countedJson "cycles" Value.strings engine.analysis.cycles

def relationsReport (engine : Engine) : Value :=
  countedJson "relations" CallEdge.toJson engine.analysis.relations

def treeReport (engine : Engine) (signature : String) (depth : Option Nat) :
    Except EngineError Value :=
  (engine.tree signature depth).map (CallTree.report (engine.depthOr depth))

def treesReport (engine : Engine) (depth : Option Nat) : Except EngineError Value :=
  (engine.trees depth).map fun trees =>
    .obj
      [("max_depth", .num (engine.depthOr depth)),
       ("trees", .list (CallTree.report (engine.depthOr depth)) trees)]

def snapshotReport (engine : Engine) (depth : Option Nat) : Except EngineError Value :=
  (engine.snapshot depth).map Snapshot.toJson

end Engine

structure TreeRequest where
  signature : String
  maxDepth : Option Nat := none
  deriving DecidableEq, Repr

namespace TreeRequest

def layout (levels : Nat) : Layout [String, Option Nat] :=
  .cons (Decode.required "signature" Decode.text levels) <|
  .cons (Decode.withDefault "max_depth" (Decode.optional (Decode.natBelow depthBound)) none
    levels) .nil

def ofRow : Row [String, Option Nat] → TreeRequest
  | (signature, maxDepth, ()) => { signature, maxDepth }

def decode : Decoder TreeRequest :=
  Decode.record layout ofRow

end TreeRequest

end CallTrace
