import CallTrace.Proofs.CallGraph.Growth
import CallTrace.Proofs.Classifier.Layers
import CallTrace.Proofs.Snapshot.Faults

/-!
What restoring rebuilds. It succeeds exactly on trees and entry points without a fault, and then the
graph has their signatures and links and nothing else. A node keeps the class and file it has, or
takes them from its first entry point or from its signature; its layer is the first known one, in
the order in which the tree nodes are visited.
-/

namespace CallTrace

open Classifier (firstKnown)

namespace GraphNode

theorem foldl_takeUp_some (visited : List CallTree) (n : GraphNode) :
    visited.foldl takeUp (some n) =
      some { n with layer := firstKnown (n.layer :: visited.map fun tree => tree.layer) } := by
  induction visited generalizing n with
  | nil => simp [Classifier.firstKnown_singleton]
  | cons tree rest ih =>
      rw [List.foldl_cons, takeUp, ih, List.map_cons, Classifier.firstKnown_cons n.layer]
      cases hunknown : n.layer.isUnknown with
      | true => simp
      | false => simp [Classifier.firstKnown_cons n.layer, hunknown]

theorem foldl_takeUp_none {visited : List CallTree} {s : Signature}
    (hvisited : ∀ tree ∈ visited, tree.signature = s) (hne : visited ≠ []) :
    visited.foldl takeUp none =
      some ⟨s, (Signature.owner? s).getD unknownText, unknownText,
        firstKnown (visited.map fun tree => tree.layer)⟩ := by
  cases visited with
  | nil => exact absurd rfl hne
  | cons tree rest =>
      obtain rfl := hvisited tree List.mem_cons_self
      rw [List.foldl_cons, takeUp, foldl_takeUp_some]
      rfl

end GraphNode

theorem CallGraph.layerOf_of_node? {g : CallGraph} {s : Signature} {n : GraphNode}
    (h : g.node? s = some n) : g.layerOf s = n.layer := by
  rw [layerOf, h]

namespace Absorbs

variable {g after : CallGraph} {visited : List CallTree} {links : List CallEdge}

def layersOf (visited : List CallTree) (s : Signature) : List Layer :=
  (visited.filter fun tree => tree.signature == s).map fun tree => tree.layer

theorem mem_layersOf {s : Signature} {layer : Layer} :
    layer ∈ layersOf visited s ↔ ∃ tree ∈ visited, tree.signature = s ∧ tree.layer = layer := by
  simp [layersOf, and_assoc]

theorem node?_of_known (h : Absorbs g after visited links) {s : Signature} {n : GraphNode}
    (hn : g.node? s = some n) :
    after.node? s = some { n with layer := firstKnown (n.layer :: layersOf visited s) } := by
  rw [h.node, hn, GraphNode.foldl_takeUp_some]
  rfl

theorem node?_of_unknown (h : Absorbs g after visited links) {s : Signature}
    (hnone : g.node? s = none) (hshown : ∃ tree ∈ visited, tree.signature = s) :
    after.node? s =
      some ⟨s, (Signature.owner? s).getD unknownText, unknownText,
        firstKnown (layersOf visited s)⟩ := by
  obtain ⟨tree, htree, hs⟩ := hshown
  have hmem : tree ∈ visited.filter fun tree => tree.signature == s := by simp [htree, hs]
  have hvisited : ∀ tree ∈ visited.filter fun tree => tree.signature == s, tree.signature = s := by
    simp
  rw [h.node, hnone, GraphNode.foldl_takeUp_none hvisited (List.ne_nil_of_mem hmem)]
  rfl

theorem layerOf_eq (h : Absorbs g after visited links) (s : Signature) :
    after.layerOf s = firstKnown (g.layerOf s :: layersOf visited s) := by
  cases hn : g.node? s with
  | some n => rw [CallGraph.layerOf_of_node? (h.node?_of_known hn), CallGraph.layerOf_of_node? hn]
  | none =>
      have hunknown : g.layerOf s = .unknown := by rw [CallGraph.layerOf, hn]
      rw [hunknown, Classifier.firstKnown_unknown]
      by_cases hshown : ∃ tree ∈ visited, tree.signature = s
      · rw [CallGraph.layerOf_of_node? (h.node?_of_unknown hn hshown)]
      · have hnone : visited.filter (fun tree => tree.signature == s) = [] := by
          simpa using hshown
        rw [CallGraph.layerOf, h.node, hn, layersOf, hnone]
        rfl

end Absorbs

def CallTree.ShowsLayer (trees : List CallTree) (s : Signature) (layer : Layer) : Prop :=
  ∃ tree ∈ trees, ∃ node, tree.HasNode node ∧ node.signature = s ∧ node.layer = layer

namespace Restored

variable {g after : CallGraph} {trees : List CallTree} {s : Signature}

theorem layerOf_eq_firstKnown (h : Restored g after trees) (s : Signature) :
    ∃ layers, (∀ layer, layer ∈ layers ↔ CallTree.ShowsLayer trees s layer) ∧
      after.layerOf s = firstKnown (g.layerOf s :: layers) := by
  obtain ⟨visited, links, habsorbs, hvisited, -⟩ := h
  refine ⟨Absorbs.layersOf visited s, fun layer => ?_, habsorbs.layerOf_eq s⟩
  rw [Absorbs.mem_layersOf]
  constructor
  · intro hlayer
    obtain ⟨node, hnode, hs, hlayer⟩ := hlayer
    obtain ⟨tree, htree, hbelow⟩ := (hvisited node).mp hnode
    exact ⟨tree, htree, node, hbelow, hs, hlayer⟩
  · intro hlayer
    obtain ⟨tree, htree, node, hbelow, hs, hlayer⟩ := hlayer
    exact ⟨node, (hvisited node).mpr ⟨tree, htree, hbelow⟩, hs, hlayer⟩

theorem node?_of_known (h : Restored g after trees) {n : GraphNode} (hn : g.node? s = some n) :
    after.node? s = some { n with layer := after.layerOf s } := by
  obtain ⟨visited, links, habsorbs, -, -⟩ := h
  have hnode := habsorbs.node?_of_known hn
  rw [CallGraph.layerOf_of_node? hnode]
  exact hnode

theorem node?_of_unknown (h : Restored g after trees) (hnone : g.node? s = none)
    (hshown : ∃ tree ∈ trees, s ∈ tree.signatures) :
    after.node? s =
      some ⟨s, (Signature.owner? s).getD unknownText, unknownText, after.layerOf s⟩ := by
  obtain ⟨visited, links, habsorbs, hvisited, -⟩ := h
  obtain ⟨tree, htree, hs⟩ := hshown
  obtain ⟨node, hnode, hsignature⟩ := CallTree.mem_signatures.mp hs
  have hmade := habsorbs.node?_of_unknown hnone
    ⟨node, (hvisited node).mpr ⟨tree, htree, hnode⟩, hsignature⟩
  rw [CallGraph.layerOf_of_node? hmade]
  exact hmade

theorem layerOf_of_known (h : Restored g after trees) (hknown : g.layerOf s ≠ .unknown) :
    after.layerOf s = g.layerOf s := by
  obtain ⟨layers, -, hlayer⟩ := h.layerOf_eq_firstKnown s
  rw [hlayer, Classifier.firstKnown_of_known hknown]

theorem layerOf_eq_unknown_iff (h : Restored g after trees) (hunknown : g.layerOf s = .unknown) :
    after.layerOf s = .unknown ↔
      ∀ layer, CallTree.ShowsLayer trees s layer → layer = .unknown := by
  obtain ⟨layers, hshown, hlayer⟩ := h.layerOf_eq_firstKnown s
  rw [hlayer, hunknown, Classifier.firstKnown_unknown, Classifier.firstKnown_eq_unknown_iff]
  simp only [hshown]

theorem showsLayer_layerOf (h : Restored g after trees) (hunknown : g.layerOf s = .unknown)
    (hknown : after.layerOf s ≠ .unknown) : CallTree.ShowsLayer trees s (after.layerOf s) := by
  obtain ⟨layers, hshown, hlayer⟩ := h.layerOf_eq_firstKnown s
  rw [hunknown, Classifier.firstKnown_unknown] at hlayer
  rw [hlayer] at hknown ⊢
  exact (hshown _).mp (Classifier.firstKnown_mem hknown)

end Restored

theorem CallGraph.extends_restoreNode (g : CallGraph) (tree : CallTree) :
    g.Extends (g.restoreNode tree) := by
  unfold restoreNode
  split
  · exact .insertNode g _
  · split
    · exact .setLayer g _ _
    · exact .of_edges_eq rfl

namespace Restore

theorem extends_of_runs_modify {f : CallGraph → CallGraph} (hf : ∀ g, CallGraph.Extends g (f g))
    {g after : CallGraph} (h : Runs (modify f) g after) : g.Extends after := by
  cases h
  exact hf g

theorem extends_of_runs_forM {f : α → RestoreM Unit} {items : List α}
    (hf : ∀ item ∈ items, ∀ {g after}, Runs (f item) g after → CallGraph.Extends g after)
    {g after : CallGraph} (h : Runs (items.forM f) g after) : g.Extends after := by
  induction items generalizing g with
  | nil =>
      cases h
      exact .of_edges_eq rfl
  | cons item rest ih =>
      obtain ⟨hitem, hrest⟩ := List.forall_mem_cons.mp hf
      obtain ⟨middle, hfirst, hothers⟩ := h.of_bind
      exact (hitem hfirst).trans (ih hrest hothers)

theorem extends_of_runs_child {parent : Signature} {tree : CallTree} {g after : CallGraph}
    (h : Runs (child parent tree) g after) : g.Extends after := by
  obtain ⟨-, h⟩ := h.of_guard Runs.not_throw
  refine extends_of_runs_modify (fun g => ?_) h
  exact (g.extends_restoreNode tree).trans (.link _ _ _)

mutual

theorem extends_of_runs_subtree (tree : CallTree) {g after : CallGraph}
    (h : Runs (subtree tree) g after) : g.Extends after := by
  cases tree with
  | mk s layer circular children entry =>
      rw [subtree] at h
      obtain ⟨-, h⟩ := h.of_guard Runs.not_throw_bind
      obtain ⟨taken, htaken, h⟩ := h.of_bind
      obtain ⟨linked, hlinked, hbelow⟩ := h.of_bind
      have hroot := extends_of_runs_modify (fun g => g.extends_restoreNode _) htaken
      have hchildren := extends_of_runs_forM (fun _ _ => extends_of_runs_child) hlinked
      exact (hroot.trans hchildren).trans (extends_of_runs_subtreesFromLast children hbelow)

theorem extends_of_runs_subtreesFromLast (trees : List CallTree) {g after : CallGraph}
    (h : Runs (subtreesFromLast trees) g after) : g.Extends after := by
  cases trees with
  | nil =>
      cases h
      exact .of_edges_eq rfl
  | cons tree rest =>
      rw [subtreesFromLast] at h
      obtain ⟨middle, hrest, htree⟩ := h.of_bind
      exact (extends_of_runs_subtreesFromLast rest hrest).trans (extends_of_runs_subtree tree htree)

end

theorem extends_of_runs_tree {root : CallTree} {g after : CallGraph}
    (h : Runs (tree root) g after) : g.Extends after := by
  unfold tree at h
  obtain ⟨-, h⟩ := h.of_guard Runs.not_throw_bind
  dsimp only at h
  split at h
  · obtain ⟨-, h⟩ := h.of_guard Runs.not_throw_bind
    exact extends_of_runs_subtree root h
  · exact extends_of_runs_subtree root h

theorem extends_of_runs_entryPoint {entry : EntryPoint} {g after : CallGraph}
    (h : Runs (entryPoint entry) g after) : g.Extends after := by
  obtain ⟨-, h⟩ := h.of_guard Runs.not_throw
  exact extends_of_runs_modify (fun g => .insertNode g _) h

theorem extends_of_runs_all {trees : List CallTree} {entries : List EntryPoint}
    {g after : CallGraph} (h : Runs (all trees entries) g after) : g.Extends after := by
  obtain ⟨middle, hentries, htrees⟩ := h.of_bind
  exact (extends_of_runs_forM (fun _ _ => extends_of_runs_entryPoint) hentries).trans
    (extends_of_runs_forM (fun _ _ => extends_of_runs_tree) htrees)

/-- The second graph is the first with the signatures and links of these trees and entry points. -/
structure Rebuilt (trees : List CallTree) (entries : List EntryPoint) (g after : CallGraph) :
    Prop where
  hasNode_iff : ∀ s, after.hasNode s = true ↔
    g.hasNode s = true ∨ (∃ entry ∈ entries, entry.signature = s) ∨
      ∃ tree ∈ trees, s ∈ tree.signatures
  /-- Each link that is not there yet is added once, behind the edges that are there. -/
  edges_eq : ∃ added, after.edges = g.edges ++ added ∧ added.Nodup ∧
    ∀ u v, ⟨u, v⟩ ∈ added ↔ g.hasEdge u v = false ∧ ∃ tree ∈ trees, tree.Links u v
  node_kept : ∀ s n, g.node? s = some n → after.node? s = some { n with layer := after.layerOf s }
  node_of_entry : ∀ s entry, g.hasNode s = false →
    entries.find? (fun e => e.signature == s) = some entry →
    after.node? s = some ⟨s, entry.className, entry.filePath, after.layerOf s⟩
  node_of_tree : ∀ s, g.hasNode s = false → (∀ entry ∈ entries, entry.signature ≠ s) →
    (∃ tree ∈ trees, s ∈ tree.signatures) →
    after.node? s =
      some ⟨s, (Signature.owner? s).getD unknownText, unknownText, after.layerOf s⟩
  layer_kept : ∀ s, g.layerOf s ≠ .unknown → after.layerOf s = g.layerOf s
  layer_unknown_iff : ∀ s, g.layerOf s = .unknown →
    (after.layerOf s = .unknown ↔ ∀ layer, CallTree.ShowsLayer trees s layer → layer = .unknown)
  layer_shown : ∀ s, g.layerOf s = .unknown → after.layerOf s ≠ .unknown →
    CallTree.ShowsLayer trees s (after.layerOf s)
  /-- One node a signature and one edge a pair stay so. -/
  wellFormed : g.WellFormed → after.WellFormed

variable {trees : List CallTree} {entries : List EntryPoint} {g after : CallGraph}

theorem layerOf_entryNodes (g : CallGraph) (entries : List EntryPoint) (s : Signature) :
    (g.insertNodes entryNode entries).layerOf s = g.layerOf s := by
  rw [CallGraph.layerOf, CallGraph.node?_insertNodes, CallGraph.layerOf]
  cases g.node? s with
  | some n => rfl
  | none =>
      cases entries.find? fun entry => (entryNode entry).signature == s <;> rfl

theorem node?_entryNodes_of_new {s : Signature} (hnew : g.hasNode s = false)
    (entries : List EntryPoint) :
    (g.insertNodes entryNode entries).node? s =
      (entries.find? fun entry => entry.signature == s).map entryNode := by
  have hnone : g.node? s = none := by
    rw [← Option.not_isSome_iff_eq_none, CallGraph.isSome_node?, hnew]
    exact Bool.false_ne_true
  rw [CallGraph.node?_insertNodes, hnone, Option.none_or]
  rfl

theorem into_eq_ok_iff : into g trees entries = (.ok (), after) ↔ graph g trees entries = .ok after := by
  unfold graph
  split
  · rename_i heq
    rw [heq]
    simp
  · rename_i heq
    rw [heq]
    simp

theorem into_ok_iff :
    (into g trees entries).1 = .ok () ↔
      (∀ entry ∈ entries, Text.isBlank entry.signature = false) ∧
        ∀ root ∈ trees, root.Restorable ∧ RootMatches root := by
  constructor
  · intro h
    exact of_graph_eq_ok (into_eq_ok_iff.mp (Prod.ext h rfl))
  · intro h
    obtain ⟨hentries, htrees⟩ := h
    obtain ⟨after, hgraph, -⟩ := restored_graph hentries (fun root hroot => (htrees root hroot).1)
      (fun root hroot => (htrees root hroot).2) g
    rw [into_eq_ok_iff.mpr hgraph]

theorem restored_of_into (h : into g trees entries = (.ok (), after)) :
    Restored (g.insertNodes entryNode entries) after trees := by
  have hgraph := into_eq_ok_iff.mp h
  obtain ⟨hentries, htrees⟩ := of_graph_eq_ok hgraph
  obtain ⟨other, hother, hrestored⟩ := restored_graph hentries
    (fun root hroot => (htrees root hroot).1) (fun root hroot => (htrees root hroot).2) g
  cases hgraph.symm.trans hother
  exact hrestored

theorem edges_of_into (h : into g trees entries = (.ok (), after)) :
    ∃ added, after.edges = g.edges ++ added ∧ added.Nodup ∧
      ∀ u v, ⟨u, v⟩ ∈ added ↔ g.hasEdge u v = false ∧ ∃ tree ∈ trees, tree.Links u v := by
  obtain ⟨added, hedges, hnodup, hnew⟩ := extends_of_runs_all h
  refine ⟨added, hedges, hnodup, fun u v => ?_⟩
  have hold : g.hasEdge u v = false ↔ (⟨u, v⟩ : CallEdge) ∉ g.edges := by
    rw [← CallGraph.hasEdge_iff, Bool.not_eq_true]
  -- the restored edges are known as a set; what is not among the old ones was added
  have hlinked : (⟨u, v⟩ : CallEdge) ∈ g.edges ++ added ↔
      (⟨u, v⟩ : CallEdge) ∈ g.edges ∨ ∃ tree ∈ trees, tree.Links u v := by
    rw [← hedges, ← CallGraph.hasEdge_iff, ← CallGraph.hasEdge_iff,
      (restored_of_into h).hasEdge_iff, CallGraph.hasEdge_insertNodes]
  rw [hold]
  rw [List.mem_append] at hlinked
  constructor
  · intro hadded
    exact ⟨hnew _ hadded, (hlinked.mp (.inr hadded)).resolve_left (hnew _ hadded)⟩
  · intro hcase
    obtain ⟨hfresh, hshown⟩ := hcase
    exact (hlinked.mpr (.inr hshown)).resolve_left hfresh

theorem rebuilt_of_into (h : into g trees entries = (.ok (), after)) :
    Rebuilt trees entries g after := by
  have hrestored := restored_of_into h
  have hlayers := layerOf_entryNodes g entries
  exact {
    hasNode_iff := fun s => by
      rw [hrestored.hasNode_iff, CallGraph.hasNode_insertNodes, or_assoc]
      rfl
    edges_eq := edges_of_into h
    node_kept := fun s n hn => by
      apply hrestored.node?_of_known
      rw [CallGraph.node?_insertNodes, hn, Option.some_or]
    node_of_entry := fun s entry hnew hfirst => by
      obtain rfl : entry.signature = s := by simpa using List.find?_some hfirst
      have hnode := node?_entryNodes_of_new hnew entries
      rw [hfirst] at hnode
      exact hrestored.node?_of_known hnode
    node_of_tree := fun s hnew hnone hshown => by
      refine hrestored.node?_of_unknown ?_ hshown
      have hfirst : entries.find? (fun entry => entry.signature == s) = none := by
        simpa using hnone
      rw [node?_entryNodes_of_new hnew, hfirst, Option.map_none]
    layer_kept := fun s hknown => by
      rw [← hlayers] at hknown ⊢
      exact hrestored.layerOf_of_known hknown
    layer_unknown_iff := fun s hunknown => by
      rw [← hlayers] at hunknown
      exact hrestored.layerOf_eq_unknown_iff hunknown
    layer_shown := fun s hunknown => by
      rw [← hlayers] at hunknown
      exact hrestored.showsLayer_layerOf hunknown
    wellFormed := fun hg => hrestored.wellFormed (hg.insertNodes entryNode entries) }

/-- Restoring succeeds exactly where no entry point or tree has a fault, and then rebuilds exactly
their signatures and links. -/
theorem rebuilds_exactly (g : CallGraph) (trees : List CallTree) (entries : List EntryPoint) :
    ((into g trees entries).1 = .ok () ↔
      (∀ entry ∈ entries, Text.isBlank entry.signature = false) ∧
        ∀ root ∈ trees, root.Restorable ∧ RootMatches root) ∧
    ((into g trees entries).1 = .ok () →
      Rebuilt trees entries g (into g trees entries).2) :=
  ⟨into_ok_iff, fun hok => rebuilt_of_into (Prod.ext hok rfl)⟩

end Restore

def nightEntry : EntryPoint :=
  .ofMethod "SCHEDULED" "" "NightJob" "run" "jobs"

def nightBase : CallGraph :=
  CallGraph.empty.insertNode ⟨"Store.save", "Store", "store", .unknown⟩

def nightTrees : List CallTree :=
  [{ signature := "NightJob.run"
     layer := .service
     children :=
       [{ signature := "Store.save", layer := .unknown },
        .circularLeaf "NightJob.run" .service]
     entryPoint := some nightEntry },
   { signature := "Store.save", layer := .repository }]

theorem rebuilds_exactly_night :
    (Restore.into nightBase nightTrees [nightEntry]).1 = .ok () ∧
      (Restore.into nightBase nightTrees [nightEntry]).2.node? "Store.save" =
        some ⟨"Store.save", "Store", "store", .repository⟩ ∧
      (Restore.into nightBase nightTrees [nightEntry]).2.node? "NightJob.run" =
        some ⟨"NightJob.run", "NightJob", "jobs", .service⟩ := by
  have hok : (Restore.into nightBase nightTrees [nightEntry]).1 = .ok () := by decide +kernel
  have hrebuilt := (Restore.rebuilds_exactly nightBase nightTrees [nightEntry]).2 hok
  have hstore := hrebuilt.node_kept "Store.save" ⟨"Store.save", "Store", "store", .unknown⟩
    (by decide)
  have hjob := hrebuilt.node_of_entry "NightJob.run" nightEntry (by decide) (by decide)
  refine ⟨hok, hstore.trans ?_, hjob.trans ?_⟩
  · decide +kernel
  · decide +kernel

end CallTrace
