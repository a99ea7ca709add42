import CallTrace.Proofs.CallTree.Walk

namespace CallTrace

namespace CallGraph

/-- The tree of an entry point: its unfolding, with the entry point at the root. -/
def rooted (g : CallGraph) (depth : Nat) (entry : EntryPoint) : CallTree :=
  { g.unfold depth [entry.signature] entry.signature with entryPoint := some entry }

theorem mem_signatures_rooted {g : CallGraph} {depth : Nat} {entry : EntryPoint}
    {s : Signature} :
    s ∈ (g.rooted depth entry).signatures ↔
      ∃ n, n ≤ depth ∧ g.ReachesIn n entry.signature s := by
  rw [rooted, CallTree.mem_signatures_withEntry, mem_signatures_unfold]

theorem links_rooted {g : CallGraph} {depth : Nat} {entry : EntryPoint} {u v : Signature} :
    (g.rooted depth entry).Links u v ↔
      g.hasEdge u v = true ∧ ∃ n, n < depth ∧ g.ReachesIn n entry.signature u := by
  rw [rooted, CallTree.links_withEntry, links_unfold]

theorem hasNode_rooted {g : CallGraph} {depth : Nat} {entry : EntryPoint} {node : CallTree}
    (h : (g.rooted depth entry).HasNode node) :
    node.layer = g.layerOf node.signature ∧ (node.circular = true → node.children = []) := by
  obtain ⟨entry', h⟩ := h.ofEntry
  obtain ⟨path, v, -, hnode⟩ := hasNode_unfold.mp h
  have hlayer := branch_layer g (depth - path.length) path.reverse v
  have hsignature := branch_signature g (depth - path.length) path.reverse v
  have hchildren : (g.branch (depth - path.length) path.reverse v).circular = true →
      (g.branch (depth - path.length) path.reverse v).children = [] :=
    branch_children_of_circular
  rw [← hnode] at hlayer hsignature hchildren
  refine ⟨?_, hchildren⟩
  rw [← hsignature] at hlayer
  exact hlayer

end CallGraph

/-- Well-formed, and without a blank signature. -/
structure CallGraph.Legible (g : CallGraph) : Prop extends WellFormed g where
  named : ∀ s, g.hasNode s = true → Text.isBlank s = false

namespace Analysis

/-- The graph is legible, and every entry point is one of its nodes. -/
structure Traceable (a : Analysis) : Prop where
  legible : a.graph.Legible
  entry : ∀ entry ∈ a.entryPoints, a.graph.hasNode entry.signature = true

/-- Some entry point reaches the signature in at most so many calls. -/
def Shows (a : Analysis) (depth : Nat) (s : Signature) : Prop :=
  ∃ entry ∈ a.entryPoints, ∃ n, n ≤ depth ∧ a.graph.ReachesIn n entry.signature s

/-- Some entry point reaches the signature in fewer calls, so that its own calls are shown too. -/
def ShowsCalls (a : Analysis) (depth : Nat) (s : Signature) : Prop :=
  ∃ entry ∈ a.entryPoints, ∃ n, n < depth ∧ a.graph.ReachesIn n entry.signature s

theorem Shows.entry {a : Analysis} {entry : EntryPoint} (h : entry ∈ a.entryPoints)
    (depth : Nat) : a.Shows depth entry.signature :=
  ⟨entry, h, 0, Nat.zero_le depth, .refl _⟩

theorem Traceable.hasNode {a : Analysis} (ha : a.Traceable) {depth : Nat} {s : Signature}
    (hs : a.Shows depth s) : a.graph.hasNode s = true := by
  obtain ⟨entry, hentry, n, -, hreach⟩ := hs
  exact hreach.hasNode ha.legible.toWellFormed (ha.entry entry hentry)

theorem checkDepth_eq_ok {depth : Nat} (hdepth : depth ≤ maxTreeDepth) :
    checkDepth depth = .ok () := by
  rw [checkDepth, if_neg (by omega)]

theorem lt_depthBound {depth : Nat} (hdepth : depth ≤ maxTreeDepth) :
    depth < depthBound := by
  simp only [maxTreeDepth, depthBound] at hdepth ⊢
  omega

theorem tree_eq {a : Analysis} {depth : Nat} (hdepth : depth ≤ maxTreeDepth) {s : Signature}
    (hs : a.graph.hasNode s = true) :
    a.tree s depth =
      .ok { a.graph.unfold depth [s] s with entryPoint := a.entryPoint? s } := by
  rw [tree, checkDepth_eq_ok hdepth]
  simp only [CallGraph.trace, CallGraph.tree?_eq_some (lt_depthBound hdepth) hs]
  rfl

theorem trees_eq {a : Analysis} {depth : Nat} (hdepth : depth ≤ maxTreeDepth)
    (hentries : ∀ entry ∈ a.entryPoints, a.graph.hasNode entry.signature = true) :
    a.trees depth = .ok (a.entryPoints.map (a.graph.rooted depth)) := by
  have htraces : (a.entryPoints.filterMap fun entry =>
        (a.graph.trace entry.signature depth (some entry)).toOption) =
      a.entryPoints.map (a.graph.rooted depth) := by
    rw [← List.filterMap_eq_map]
    apply List.filterMap_congr
    intro entry hentry
    simp only [CallGraph.trace,
      CallGraph.tree?_eq_some (lt_depthBound hdepth) (hentries entry hentry)]
    rfl
  rw [trees, checkDepth_eq_ok hdepth, htraces]
  rfl

def snapshot (a : Analysis) (depth : Nat) : Snapshot :=
  .capture depth a.entryPoints (a.entryPoints.map (a.graph.rooted depth)) a.graph

theorem Traceable.save_eq {a : Analysis} (ha : a.Traceable) {depth : Nat}
    (hdepth : depth ≤ maxTreeDepth) : a.save depth = .ok (a.snapshot depth) := by
  rw [save, trees_eq hdepth ha.entry]
  rfl

theorem exists_mem_signatures_iff {a : Analysis} {depth : Nat} {s : Signature} :
    (∃ tree ∈ a.entryPoints.map (a.graph.rooted depth), s ∈ tree.signatures) ↔
      a.Shows depth s := by
  simp only [List.mem_map, exists_exists_and_eq_and, CallGraph.mem_signatures_rooted]
  rfl

theorem exists_links_iff {a : Analysis} {depth : Nat} {u v : Signature} :
    (∃ tree ∈ a.entryPoints.map (a.graph.rooted depth), tree.Links u v) ↔
      a.graph.hasEdge u v = true ∧ a.ShowsCalls depth u := by
  simp only [List.mem_map, exists_exists_and_eq_and, CallGraph.links_rooted]
  constructor
  · intro h
    obtain ⟨entry, hentry, hedge, hreach⟩ := h
    exact ⟨hedge, entry, hentry, hreach⟩
  · intro h
    obtain ⟨hedge, entry, hentry, hreach⟩ := h
    exact ⟨entry, hentry, hedge, hreach⟩

end Analysis

end CallTrace
