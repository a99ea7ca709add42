import CallTrace.Engine.Report

namespace CallTrace.CommandLine

open Json

def line (parts : List String) : String :=
  String.join parts ++ "\n"

def jsonText (value : Value) : String :=
  line [value.pretty]

/-- Items with their numbers, from one. -/
def numbered (items : List α) : List (String × α) :=
  items.zipIdx.map fun (item, i) => (toString (i + 1), item)

def summaryText (engine : Engine) : String :=
  let s := engine.analysis.summary
  let g := engine.analysis.graph
  String.join
    [line ["Call Graph Summary:"],
     line ["  Source: ", engine.source.path],
     line ["  Classes: ", toString s.classes],
     line ["  Methods: ", toString s.methods],
     line ["  Nodes: ", toString g.nodes.length],
     line ["  Edges: ", toString g.arcs.length],
     line ["  Entry points: ", toString engine.analysis.entryPoints.length],
     line ["  Calls: ", toString s.resolvedCalls, " resolved, ", toString s.heuristicCalls,
       " heuristic, ", toString s.skippedCalls, " skipped"],
     line ["  Skipped: ", toString s.skippedFiles, " files, ", toString s.skippedClasses,
       " classes"],
     line ["  Dispatch: ", toString s.dispatch.interfaceCalls, " interface calls, ",
       toString s.dispatch.expandedEdges, " edges added, ", toString s.dispatch.misses,
       " misses"]]

/-- Source and counts in one object, with sorted keys. -/
def summaryJson (engine : Engine) : Value :=
  Value.sortKeys (.obj [("health", engine.health), ("summary", engine.summaryReport)])

def entryPointsText (engine : Engine) : String :=
  let entries := engine.analysis.entryPoints
  String.join
    ([line ["Found ", toString entries.length, " entry point(s):"],
      line [String.ofList (List.replicate 80 '=')]]
      ++ (numbered entries).map fun (number, entry) =>
        line [number, ". [", entry.descriptor, "] ", entry.signature]
          ++ line ["   ", entry.filePath])

def treesText (trees : List CallTree) : String :=
  String.join (trees.map fun tree => tree.render ++ "\n")

def cyclesText (engine : Engine) : String :=
  match engine.analysis.cycles with
  | [] => line ["No circular references found."]
  | cycles =>
      String.join
        (line ["Found ", toString cycles.length, " circular reference(s):"]
          :: (numbered cycles).map fun (number, cycle) =>
            line [number, ". ", String.intercalate " -> " cycle])

def relationsText (engine : Engine) : String :=
  String.join (engine.analysis.relations.map fun edge => line [edge.caller, " -> ", edge.callee])

def snapshotText (out : String) (snapshot : Snapshot) : String :=
  line ["Snapshot written to ", out, " (", toString snapshot.trees.length, " trees, max depth ",
    toString snapshot.maxDepth, ")"]

end CallTrace.CommandLine
