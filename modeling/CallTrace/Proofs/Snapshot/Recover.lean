import CallTrace.Proofs.Analysis.Trees
import CallTrace.Proofs.Snapshot.Capture
import CallTrace.Proofs.Snapshot.Restore

/-!
A snapshot that describes an analysis restores to what its trees show: the nodes its entry points
reach within the depth, and the calls of those above the last level.
-/

namespace CallTrace

/-- A snapshot of the trees of an analysis, with metadata for some of what they show. -/
structure Snapshot.Describes (snapshot : Snapshot) (a : Analysis) (depth : Nat) : Prop where
  version : snapshot.version = currentVersion
  entryPoints : snapshot.entryPoints = a.entryPoints
  trees : snapshot.trees = a.entryPoints.map (a.graph.rooted depth)
  nodes : ∀ s metadata, snapshot.nodes.get? s = some metadata →
    a.Shows depth s ∧ (a.graph.node? s).map .ofNode = some metadata

namespace Snapshot

def base (snapshot : Snapshot) : CallGraph :=
  snapshot.metadataGraph.insertNodes Restore.entryNode snapshot.entryPoints

theorem wellFormed_base (snapshot : Snapshot) : snapshot.base.WellFormed :=
  snapshot.wellFormed_metadataGraph.insertNodes Restore.entryNode snapshot.entryPoints

theorem hasEdge_base (snapshot : Snapshot) (u v : Signature) :
    snapshot.base.hasEdge u v = false := by
  rw [base, CallGraph.hasEdge_insertNodes, hasEdge_metadataGraph]

namespace Describes

variable {snapshot : Snapshot} {a : Analysis} {depth : Nat}

theorem of_node?_metadataGraph (h : snapshot.Describes a depth) {s : Signature}
    {n : GraphNode} (hn : snapshot.metadataGraph.node? s = some n) :
    a.Shows depth s ∧ a.graph.node? s = some n := by
  rw [node?_metadataGraph] at hn
  obtain ⟨metadata, hmetadata, rfl⟩ := Option.map_eq_some_iff.mp hn
  obtain ⟨hshows, hnode⟩ := h.nodes s metadata hmetadata
  obtain ⟨known, hknown, rfl⟩ := Option.map_eq_some_iff.mp hnode
  rw [metadataNode_ofNode hknown]
  exact ⟨hshows, hknown⟩

theorem shows_of_hasNode_base (h : snapshot.Describes a depth) {s : Signature}
    (hs : snapshot.base.hasNode s = true) : a.Shows depth s := by
  rcases (CallGraph.hasNode_insertNodes ..).mp hs with hs | ⟨entry, hentry, rfl⟩
  · obtain ⟨n, hn⟩ := CallGraph.exists_node?_of_hasNode hs
    exact (h.of_node?_metadataGraph hn).1
  · rw [h.entryPoints] at hentry
    exact .entry hentry depth

theorem layer_base (h : snapshot.Describes a depth) {s : Signature} {n : GraphNode}
    (hn : snapshot.base.node? s = some n) :
    n.layer = a.graph.layerOf s ∨ n.layer.isUnknown = true := by
  rw [base, CallGraph.node?_insertNodes] at hn
  cases hnode : snapshot.metadataGraph.node? s with
  | some known =>
      rw [hnode, Option.some_or, Option.some.injEq] at hn
      subst hn
      rw [CallGraph.layerOf_eq, (h.of_node?_metadataGraph hnode).2]
      exact .inl rfl
  | none =>
      rw [hnode, Option.none_or] at hn
      obtain ⟨entry, -, rfl⟩ := Option.map_eq_some_iff.mp hn
      exact .inr rfl

theorem node?_base (h : snapshot.Describes a depth) {s : Signature} {metadata : NodeMetadata}
    (hmetadata : snapshot.nodes.get? s = some metadata) :
    ∃ n, snapshot.base.node? s = some n ∧ a.graph.node? s = some n := by
  have hnode : snapshot.metadataGraph.node? s = some (metadataNode s metadata) := by
    rw [node?_metadataGraph, hmetadata]
    rfl
  refine ⟨_, ?_, (h.of_node?_metadataGraph hnode).2⟩
  rw [base, CallGraph.node?_insertNodes, hnode]
  rfl

end Describes

end Snapshot

namespace Analysis

/-- The second analysis has what the trees of the first show to a depth, and nothing else. -/
structure Recovers (a b : Analysis) (depth : Nat) : Prop where
  entryPoints : b.entryPoints = a.entryPoints
  wellFormed : b.graph.WellFormed
  node : ∀ s, b.graph.hasNode s = true ↔ a.Shows depth s
  edge : ∀ u v, b.graph.hasEdge u v = true ↔
    a.graph.hasEdge u v = true ∧ a.ShowsCalls depth u
  layer : ∀ s, a.Shows depth s → b.graph.layerOf s = a.graph.layerOf s

theorem restore_eq {snapshot : Snapshot} {g : CallGraph} (h : snapshot.restoreGraph = .ok g) :
    restore snapshot =
      .ok
        { graph := g
          entryPoints := snapshot.entryPoints
          summary :=
            { nodes := g.nodes.length
              edges := g.arcs.length
              entryPoints := snapshot.entryPoints.length } } := by
  rw [restore, h]
  rfl

theorem rooted_restorable {a : Analysis} (ha : a.Traceable) {depth : Nat} {entry : EntryPoint}
    (hentry : entry ∈ a.entryPoints) : (a.graph.rooted depth entry).Restorable := by
  intro node hnode
  have hshows : a.Shows depth node.signature :=
    ⟨entry, hentry, CallGraph.mem_signatures_rooted.mp
      (CallTree.mem_signatures.mpr ⟨node, hnode, rfl⟩)⟩
  exact ⟨ha.legible.named _ (ha.hasNode hshows), (CallGraph.hasNode_rooted hnode).2⟩

theorem rooted_rootMatches (g : CallGraph) (depth : Nat) (entry : EntryPoint) :
    Restore.RootMatches (g.rooted depth entry) := by
  intro other hother
  obtain rfl : entry = other := Option.some.inj hother
  exact (CallGraph.unfold_signature ..).symm

theorem Traceable.restored_graph {a : Analysis} (ha : a.Traceable) {depth : Nat}
    {snapshot : Snapshot} (h : snapshot.Describes a depth) :
    ∃ g, snapshot.restoreGraph = .ok g ∧ Restored snapshot.base g snapshot.trees := by
  have hvalid : snapshot.validate = .ok () := by
    apply Snapshot.validate_eq_ok h.version
    intro s metadata hmetadata
    exact ha.legible.named s (ha.hasNode (h.nodes s metadata hmetadata).1)
  have hnamed : ∀ entry ∈ snapshot.entryPoints, Text.isBlank entry.signature = false := by
    intro entry hentry
    rw [h.entryPoints] at hentry
    exact ha.legible.named _ (ha.entry entry hentry)
  have hroots : ∀ root ∈ snapshot.trees, root.Restorable ∧ Restore.RootMatches root := by
    intro root hroot
    rw [h.trees] at hroot
    obtain ⟨entry, hentry, rfl⟩ := List.mem_map.mp hroot
    exact ⟨rooted_restorable ha hentry, rooted_rootMatches a.graph depth entry⟩
  obtain ⟨g, hgraph, hrestored⟩ :=
    Restore.restored_graph hnamed (fun root hroot => (hroots root hroot).1)
      (fun root hroot => (hroots root hroot).2) snapshot.metadataGraph
  refine ⟨g, ?_, hrestored⟩
  rw [Snapshot.restoreGraph, hvalid]
  exact hgraph

theorem Traceable.exists_restore {a : Analysis} (ha : a.Traceable) {depth : Nat}
    {snapshot : Snapshot} (h : snapshot.Describes a depth) :
    ∃ b, restore snapshot = .ok b ∧ a.Recovers b depth ∧
      ∀ s, (snapshot.nodes.get? s).isSome = true → b.graph.node? s = a.graph.node? s := by
  obtain ⟨g, hgraph, hrestored⟩ := ha.restored_graph h
  have hlayers : ∀ root ∈ snapshot.trees, ∀ s node, root.HasNode node → node.signature = s →
      node.layer = a.graph.layerOf s := by
    rintro root hroot s node hnode rfl
    rw [h.trees] at hroot
    obtain ⟨entry, -, rfl⟩ := List.mem_map.mp hroot
    exact (CallGraph.hasNode_rooted hnode).1
  have hshown : ∀ s, (∃ tree ∈ snapshot.trees, s ∈ tree.signatures) ↔ a.Shows depth s := by
    intro s
    rw [h.trees]
    exact exists_mem_signatures_iff
  refine ⟨_, restore_eq hgraph, ?_, ?_⟩
  · exact
      { entryPoints := h.entryPoints
        wellFormed := hrestored.wellFormed snapshot.wellFormed_base
        node := by
          intro s
          rw [hrestored.hasNode_iff, hshown]
          exact or_iff_right_of_imp h.shows_of_hasNode_base
        edge := by
          intro u v
          rw [hrestored.hasEdge_iff, h.trees, exists_links_iff, snapshot.hasEdge_base]
          simp
        layer := fun s hs =>
          hrestored.layerOf_eq (fun _ => h.layer_base) (hlayers · · s) ((hshown s).mpr hs) }
  · intro s hs
    obtain ⟨metadata, hmetadata⟩ := Option.isSome_iff_exists.mp hs
    obtain ⟨n, hbase, hn⟩ := h.node?_base hmetadata
    rw [hn]
    apply hrestored.node?_eq hbase
    intro root hroot node hnode hsignature
    rw [hlayers root hroot s node hnode hsignature, CallGraph.layerOf_eq, hn]
    rfl

end Analysis

end CallTrace
