import CallTrace.Layer
import CallTrace.Signature
import CallTrace.Sort
import CallTrace.SortedMap

/-!
The store of a call graph. Nodes have indices, counted in the order in which they came, edges run
between indices, and a map leads from each signature to the index of its node.
-/

namespace CallTrace

structure GraphNode where
  signature : Signature
  className : String
  filePath : String
  layer : Layer
  deriving DecidableEq, Repr

namespace GraphNode

/-- A node of which only the signature is known. -/
def unknown (signature : Signature) : GraphNode :=
  ⟨signature, unknownText, unknownText, .unknown⟩

def method (node : GraphNode) : String :=
  Signature.method node.signature

end GraphNode

structure CallEdge where
  caller : Signature
  callee : Signature
  deriving DecidableEq, Repr

namespace CallEdge

/-- Order by caller, then by callee. -/
def le (a b : CallEdge) : Bool :=
  decide (a.caller < b.caller) || (a.caller == b.caller && decide (a.callee ≤ b.callee))

end CallEdge

def sortSignatures (signatures : List Signature) : List Signature :=
  sortBy (fun a b => decide (a ≤ b)) signatures

/-- An edge by the indices of its ends. -/
structure Arc where
  source : Nat
  target : Nat
  deriving DecidableEq, Repr

structure GraphStore where
  nodes : List GraphNode := []
  arcs : List Arc := []
  indices : SortedMap Nat := .empty
  deriving DecidableEq, Repr

namespace GraphStore

def index? (st : GraphStore) (s : Signature) : Option Nat :=
  st.indices.get? s

def hasNode (st : GraphStore) (s : Signature) : Bool :=
  st.indices.contains s

def node? (st : GraphStore) (s : Signature) : Option GraphNode :=
  (st.index? s).bind fun i => st.nodes[i]?

def signature? (st : GraphStore) (i : Nat) : Option Signature :=
  st.nodes[i]?.map fun n => n.signature

def hasEdge (st : GraphStore) (caller callee : Signature) : Bool :=
  match st.index? caller, st.index? callee with
  | some source, some target => st.arcs.contains ⟨source, target⟩
  | _, _ => false

/-- Adds a node, and tells its index; a signature keeps the node it got first. -/
def insertNode (st : GraphStore) (node : GraphNode) : Nat × GraphStore :=
  match st.index? node.signature with
  | some i => (i, st)
  | none =>
      let i := st.nodes.length
      (i, { st with nodes := st.nodes ++ [node], indices := st.indices.insert node.signature i })

def ensureNode (st : GraphStore) (s : Signature) : Nat × GraphStore :=
  match st.index? s with
  | some i => (i, st)
  | none => st.insertNode (.unknown s)

/-- Adds an edge, and its ends if they are missing; tells whether the edge is new. -/
def addEdge (st : GraphStore) (caller callee : Signature) : Bool × GraphStore :=
  let source := st.ensureNode caller
  let target := source.2.ensureNode callee
  let st := target.2
  if st.arcs.contains ⟨source.1, target.1⟩ then (false, st)
  else (true, { st with arcs := st.arcs ++ [⟨source.1, target.1⟩] })

def setLayer (st : GraphStore) (s : Signature) (layer : Layer) : GraphStore :=
  match st.index? s with
  | none => st
  | some i => { st with nodes := st.nodes.modify i fun n => { n with layer } }

/-- The signatures at the far ends of the arcs whose near end is the node of a signature. -/
def neighbours (st : GraphStore) (near far : Arc → Nat) (s : Signature) : List Signature :=
  match st.index? s with
  | none => []
  | some i =>
      sortSignatures ((st.arcs.filter fun arc => near arc == i).filterMap fun arc =>
        st.signature? (far arc))

def successors (st : GraphStore) (s : Signature) : List Signature :=
  st.neighbours Arc.source Arc.target s

def predecessors (st : GraphStore) (s : Signature) : List Signature :=
  st.neighbours Arc.target Arc.source s

def signatures (st : GraphStore) : List Signature :=
  st.indices.keys

def edge? (st : GraphStore) (arc : Arc) : Option CallEdge := do
  return ⟨← st.signature? arc.source, ← st.signature? arc.target⟩

def edges (st : GraphStore) : List CallEdge :=
  st.arcs.filterMap st.edge?

def sortedEdges (st : GraphStore) : List CallEdge :=
  sortBy CallEdge.le st.edges

end GraphStore

end CallTrace
