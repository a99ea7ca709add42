import CallTrace.GraphStore.InStep

/-! Call graphs: methods in the order they were first mentioned, and the calls between them. -/

namespace CallTrace

/-- A directed graph with at most one node for a signature. -/
structure CallGraph extends GraphStore where
  inStep : toGraphStore.InStep
  deriving DecidableEq, Repr

namespace CallGraph

theorem toGraphStore_inj {g h : CallGraph} (heq : g.toGraphStore = h.toGraphStore) : g = h := by
  cases g
  cases h
  cases heq
  rfl

def empty : CallGraph := ⟨{}, .empty⟩

instance : Inhabited CallGraph := ⟨empty⟩

def layerOf (g : CallGraph) (s : Signature) : Layer :=
  match g.node? s with
  | some n => n.layer
  | none => .unknown

def addNode (g : CallGraph) (node : GraphNode) : Nat × CallGraph :=
  let inserted := g.toGraphStore.insertNode node
  (inserted.1, ⟨inserted.2, g.inStep.insertNode node⟩)

def insertNode (g : CallGraph) (node : GraphNode) : CallGraph :=
  (g.addNode node).2

def addEdge (g : CallGraph) (caller callee : Signature) : Bool × CallGraph :=
  let added := g.toGraphStore.addEdge caller callee
  (added.1, ⟨added.2, g.inStep.addEdge caller callee⟩)

def link (g : CallGraph) (caller callee : Signature) : CallGraph :=
  (g.addEdge caller callee).2

def setLayer (g : CallGraph) (s : Signature) (layer : Layer) : CallGraph :=
  ⟨g.toGraphStore.setLayer s layer, g.inStep.setLayer s layer⟩

end CallGraph

end CallTrace
