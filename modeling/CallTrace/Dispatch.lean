import CallTrace.CallGraph
import CallTrace.EntryPoint
import CallTrace.Hierarchy
import CallTrace.Resolution

/-!
Dispatch: a call to an interface method may run any implementation, so edges to all of them are
added beside the edge to the interface, and entry points on interfaces move to implementations.
-/

namespace CallTrace

/-- A call together with the method it stands in. -/
structure CallSite where
  caller : Signature
  resolution : Resolution
  deriving DecidableEq, Repr

structure DispatchReport where
  interfaceCalls : Nat := 0
  expandedEdges : Nat := 0
  expandedEntryPoints : Nat := 0
  misses : Nat := 0
  deriving DecidableEq, Repr

namespace Hierarchy

/-- Links a caller to each target, and counts the edges that are new. -/
def linkTargets (caller : Signature) :
    List Signature → CallGraph × DispatchReport → CallGraph × DispatchReport
  | [], state => state
  | target :: rest, (g, report) =>
      match g.addEdge caller target with
      | (true, g) =>
          linkTargets caller rest (g, { report with expandedEdges := report.expandedEdges + 1 })
      | (false, g) => linkTargets caller rest (g, report)

def expandCall (h : Hierarchy) (state : CallGraph × DispatchReport) (site : CallSite) :
    CallGraph × DispatchReport :=
  match site.resolution with
  | .heuristic _ => state
  | .resolved owner method =>
      if h.isInterface owner then
        let report := { state.2 with interfaceCalls := state.2.interfaceCalls + 1 }
        match h.targets owner method with
        | [] => (state.1, { report with misses := report.misses + 1 })
        | targets => linkTargets site.caller targets (state.1, report)
      else state

def expandCalls (h : Hierarchy) (g : CallGraph) (sites : List CallSite) :
    CallGraph × DispatchReport :=
  sites.foldl h.expandCall (g, {})

/-- The entry point of an interface, moved to one of the implementations. -/
def retarget (h : Hierarchy) (entry : EntryPoint) (target : Signature) : EntryPoint :=
  let className := (Signature.owner? target).getD target
  { entry with
    signature := target
    className := className
    filePath := (h.file? className).getD "" }

def expandEntryPoint (h : Hierarchy) (keep : Bool) (state : List EntryPoint × DispatchReport)
    (entry : EntryPoint) : List EntryPoint × DispatchReport :=
  let (entries, report) := state
  match h.targets entry.className entry.method with
  | [] =>
      (EntryPoint.insertNew entries entry,
        if h.isInterface entry.className then { report with misses := report.misses + 1 }
        else report)
  | targets =>
      let moved := (targets.map (h.retarget entry)).foldl EntryPoint.insertNew entries
      (if keep then EntryPoint.insertNew moved entry else moved,
        { report with expandedEntryPoints := report.expandedEntryPoints + targets.length })

/-- Replaces entry points on interfaces by one for each implementation. Without implementations
they stay as they are; with `keep` they also stay beside their implementations. -/
def expandEntryPoints (h : Hierarchy) (keep : Bool) (entries : List EntryPoint)
    (report : DispatchReport) : List EntryPoint × DispatchReport :=
  entries.foldl (h.expandEntryPoint keep) ([], report)

end Hierarchy

end CallTrace
