import CallTrace.Proofs.CallGraph.Content
import Mathlib.Data.Finset.Card
import Mathlib.Data.List.Induction

/-!
What a run of operations leaves behind. Nodes stand in the order in which their signatures were
first mentioned and keep what they were given then, but for the layer; edges stand in the order in
which they were first added. The index of a signature, the counts and the sorted views follow.
-/

namespace CallTrace

namespace CallGraph

namespace Change

def mentions : Change → List Signature
  | .insertNode node => [node.signature]
  | .addEdge caller callee => [caller, callee]
  | .setLayer _ _ => []

/-- The node that a signature gets where the change is the first to mention it. -/
def origin (s : Signature) : Change → GraphNode
  | .insertNode node => node
  | _ => .unknown s

def edge? : Change → Option CallEdge
  | .addEdge caller callee => some ⟨caller, callee⟩
  | _ => none

def layerFor (s : Signature) : Change → Option Layer
  | .setLayer t layer => if t = s then some layer else none
  | _ => none

end Change

theorem listed_setLayer (g : CallGraph) (s : Signature) (layer : Layer) :
    (g.setLayer s layer).listed = g.listed := by
  rw [setLayer_eq, listed_mapNodes]

theorem listed_insertNode {g : CallGraph} {seen : List Signature} (h : g.listed = seen.eraseDups)
    (node : GraphNode) : (g.insertNode node).listed = (seen ++ [node.signature]).eraseDups := by
  have hseen : g.hasNode node.signature = true ↔ node.signature ∈ seen := by
    rw [hasNode_iff_mem_listed, h, List.mem_eraseDups]
  rw [eraseDups_concat, ← h, listed, nodes_insertNode]
  by_cases hmem : node.signature ∈ seen
  · rw [if_pos hmem, if_pos (hseen.mpr hmem), listed]
  · rw [if_neg hmem, if_neg (mt hseen.mp hmem), List.map_append, listed]
    rfl

theorem listed_change {g : CallGraph} {seen : List Signature} (h : g.listed = seen.eraseDups)
    (c : Change) : (g.change c).listed = (seen ++ c.mentions).eraseDups := by
  cases c with
  | insertNode node => exact listed_insertNode h node
  | addEdge caller callee =>
      have hboth := listed_insertNode (listed_insertNode h (.unknown caller)) (.unknown callee)
      rw [List.append_assoc] at hboth
      rw [change, listed, nodes_link]
      exact hboth
  | setLayer s layer =>
      rw [change, listed_setLayer, Change.mentions, List.append_nil, h]

theorem edges_change {g : CallGraph} {added : List CallEdge} (h : g.edges = added.eraseDups)
    (c : Change) : (g.change c).edges = (added ++ c.edge?.toList).eraseDups := by
  cases c with
  | insertNode node => simp [change, Change.edge?, h]
  | addEdge caller callee =>
      have hadded : g.hasEdge caller callee = true ↔ ⟨caller, callee⟩ ∈ added := by
        rw [hasEdge_iff, h, List.mem_eraseDups]
      rw [change, edges_link, Change.edge?, Option.toList_some, eraseDups_concat, ← h]
      by_cases hmem : (⟨caller, callee⟩ : CallEdge) ∈ added
      · rw [if_pos (hadded.mpr hmem), if_pos hmem]
      · rw [if_neg (mt hadded.mp hmem), if_neg hmem]
  | setLayer s layer => simp [change, Change.edge?, h]

/-- A signature keeps its node; only the layer is ever set anew. -/
theorem node?_change (g : CallGraph) (c : Change) (s : Signature) :
    (g.change c).node? s =
      ((g.node? s).or (if s ∈ c.mentions then some (c.origin s) else none)).map fun n =>
        { n with layer := (c.layerFor s).getD n.layer } := by
  cases c with
  | insertNode node =>
      simp [change, node?_insertNode, Change.mentions, Change.origin, Change.layerFor, eq_comm]
  | addEdge caller callee =>
      have hlink : (g.link caller callee).node? s =
          ((g.ensureNode caller).ensureNode callee).node? s := by
        rw [node?_eq_find?, nodes_link, ← node?_eq_find?]
      rw [change, hlink, ensureNode, ensureNode, node?_insertNode, node?_insertNode,
        Option.or_assoc]
      by_cases hcaller : caller = s <;> by_cases hcallee : callee = s <;>
        simp_all [Change.mentions, Change.origin, Change.layerFor, GraphNode.unknown, eq_comm]
  | setLayer t layer =>
      rw [change, node?_setLayer]
      by_cases heq : s = t
      · simp [Change.mentions, Change.layerFor, heq]
      · simp [Change.mentions, Change.layerFor, heq, Ne.symm heq]

theorem listed_ofChanges (changes : List Change) :
    (ofChanges changes).listed = (changes.flatMap Change.mentions).eraseDups := by
  induction changes using List.reverseRecOn with
  | nil => rfl
  | append_singleton changes c ih =>
      rw [ofChanges, List.foldl_concat, ← ofChanges, listed_change ih, List.flatMap_append,
        List.flatMap_singleton]

theorem edges_ofChanges (changes : List Change) :
    (ofChanges changes).edges = (changes.filterMap Change.edge?).eraseDups := by
  induction changes using List.reverseRecOn with
  | nil => rfl
  | append_singleton changes c ih =>
      rw [ofChanges, List.foldl_concat, ← ofChanges, edges_change ih, List.filterMap_append]
      cases hedge : c.edge? <;> simp [hedge]

theorem node?_changes {g : CallGraph} {s : Signature} {n : GraphNode} (h : g.node? s = some n)
    (changes : List Change) :
    (changes.foldl change g).node? s =
      some { n with layer := (changes.filterMap (Change.layerFor s)).getLast?.getD n.layer } := by
  induction changes generalizing g n with
  | nil => exact h
  | cons c rest ih =>
      have hnext : (g.change c).node? s = some { n with layer := (c.layerFor s).getD n.layer } := by
        rw [node?_change, h]
        rfl
      rw [List.foldl_cons, ih hnext]
      cases hlayer : c.layerFor s <;> simp [hlayer, List.getLast?_cons]

theorem node?_ofChanges {before after : List Change} {c : Change} {s : Signature}
    (hbefore : ∀ b ∈ before, s ∉ b.mentions) (hc : s ∈ c.mentions) :
    (ofChanges (before ++ c :: after)).node? s =
      some { c.origin s with
        layer := (after.filterMap (Change.layerFor s)).getLast?.getD (c.origin s).layer } := by
  have hnone : (ofChanges before).node? s = none := by
    rw [← Option.not_isSome_iff_eq_none, isSome_node?, hasNode_iff_mem_listed, listed_ofChanges,
      List.mem_eraseDups, List.mem_flatMap]
    rintro ⟨b, hb, hs⟩
    exact hbefore b hb hs
  have hfirst : ((ofChanges before).change c).node? s = some (c.origin s) := by
    rw [node?_change, hnone, if_pos hc]
    cases c with
    | setLayer t layer => cases hc
    | _ => rfl
  rw [ofChanges, List.foldl_append, List.foldl_cons, ← ofChanges]
  exact node?_changes hfirst after

theorem index?_eq (g : CallGraph) (s : Signature) : g.index? s = g.listed.idxOf? s := by
  apply Option.ext
  intro i
  rw [index?_eq_some, List.idxOf?_eq_some_iff, List.getElem?_eq_some_iff]
  constructor
  · rintro ⟨hi, hs⟩
    refine ⟨hi, hs, fun j hj hsame => ?_⟩
    have := (g.nodup_listed.getElem_inj_iff).mp (hsame.trans hs.symm)
    omega
  · rintro ⟨hi, hs, -⟩
    exact ⟨hi, hs⟩

/-- An index stays with its signature. -/
theorem index?_changes {g : CallGraph} {s : Signature} {i : Nat} (h : g.index? s = some i)
    (more : List Change) : (more.foldl change g).index? s = some i := by
  induction more generalizing g with
  | nil => exact h
  | cons c rest ih =>
      refine ih (index?_mono ?_ h)
      cases c with
      | insertNode node => exact (g.isPrefix_nodes_insertNode node).map _
      | addEdge caller callee =>
          rw [change, listed, listed, nodes_link]
          exact ((g.isPrefix_nodes_insertNode _).trans (isPrefix_nodes_insertNode _ _)).map _
      | setLayer t layer =>
          rw [change, listed_setLayer]

theorem WellFormed.sortedEdges_strict {g : CallGraph} (hg : g.WellFormed) :
    g.sortedEdges.Pairwise fun a b =>
      a.caller < b.caller ∨ a.caller = b.caller ∧ a.callee < b.callee := by
  have hsorted := sortBy_sorted CallEdge.le_isOrder g.edges
  have hdistinct : g.sortedEdges.Nodup := nodup_sortBy.mpr hg.edges_nodup
  refine (hsorted.and hdistinct).imp ?_
  rintro ⟨caller, callee⟩ ⟨caller', callee'⟩ ⟨hle, hne⟩
  rcases CallEdge.le_iff.mp hle with hlt | ⟨rfl, hle⟩
  · exact .inl hlt
  · refine .inr ⟨rfl, lt_of_le_of_ne hle ?_⟩
    rintro rfl
    exact hne rfl

theorem edge_count_ofChanges (changes : List Change) :
    (ofChanges changes).edges.length = (changes.filterMap Change.edge?).toFinset.card := by
  have hnodup := (wellFormed_ofChanges changes).edges_nodup
  rw [← List.toFinset_card_of_nodup hnodup, edges_ofChanges]
  congr 1
  ext e
  simp

end CallGraph

namespace GraphStore

open CallGraph (Change)

def change (st : GraphStore) : Change → GraphStore
  | .insertNode node => (st.insertNode node).2
  | .addEdge caller callee => (st.addEdge caller callee).2
  | .setLayer s layer => st.setLayer s layer

def ofChanges (changes : List Change) : GraphStore :=
  changes.foldl change {}

theorem InStep.change {st : GraphStore} (h : st.InStep) (c : Change) : (st.change c).InStep := by
  cases c with
  | insertNode node => exact h.insertNode node
  | addEdge caller callee => exact h.addEdge caller callee
  | setLayer s layer => exact h.setLayer s layer

theorem InStep.changes {st : GraphStore} (h : st.InStep) (changes : List Change) :
    (changes.foldl GraphStore.change st).InStep := by
  induction changes generalizing st with
  | nil => exact h
  | cons c rest ih => exact ih (h.change c)

/-- A call graph goes through the same stores. -/
theorem foldl_change_toGraphStore (g : CallGraph) (changes : List Change) :
    changes.foldl change g.toGraphStore = (changes.foldl CallGraph.change g).toGraphStore := by
  induction changes generalizing g with
  | nil => rfl
  | cons c rest ih =>
      have hstep : change g.toGraphStore c = (g.change c).toGraphStore := by
        cases c <;> rfl
      rw [List.foldl_cons, hstep, ih, List.foldl_cons]

theorem ofChanges_eq (changes : List Change) :
    ofChanges changes = (CallGraph.ofChanges changes).toGraphStore :=
  foldl_change_toGraphStore .empty changes

/-- What a store holds after a run of changes. -/
structure Records (changes : List Change) (st : GraphStore) : Prop where
  /-- A signature has an index exactly if the node of that index carries it. -/
  index_iff : ∀ s i, st.index? s = some i ↔
    ∃ node, st.nodes[i]? = some node ∧ node.signature = s
  hasNode_iff : ∀ s, st.hasNode s = true ↔ ∃ i < st.nodes.length, st.index? s = some i
  /-- No index is left out or shared. -/
  index_unique : ∀ i < st.nodes.length, ∃! s, st.index? s = some i
  /-- Indices count the signatures in the order of their first mention. -/
  index_eq : ∀ s, st.index? s = (changes.flatMap Change.mentions).eraseDups.idxOf? s
  index_stays : ∀ (more : List Change) (s i), st.index? s = some i →
    (more.foldl change st).index? s = some i
  /-- An insertion returns the index that the signature has from then on, new or old. -/
  insertNode_index : ∀ node (more : List Change),
    (more.foldl change (st.insertNode node).2).index? node.signature = some (st.insertNode node).1
  insertNode_again : ∀ node (more : List Change) again, again.signature = node.signature →
    ((more.foldl change (st.insertNode node).2).insertNode again).1 = (st.insertNode node).1
  /-- A node is what the first change to mention its signature made of it, with the layer that was
  set last since then. -/
  node_eq : ∀ before c after s, changes = before ++ c :: after → (∀ b ∈ before, s ∉ b.mentions) →
    s ∈ c.mentions → st.node? s = some { c.origin s with
      layer := (after.filterMap (Change.layerFor s)).getLast?.getD (c.origin s).layer }
  hasEdge_iff : ∀ u v, st.hasEdge u v = true ↔ .addEdge u v ∈ changes
  /-- To add an edge tells whether it was added before. -/
  addEdge_iff : ∀ u v, (st.addEdge u v).1 = true ↔ .addEdge u v ∉ changes
  edge_count : st.arcs.length = (changes.filterMap Change.edge?).toFinset.card
  successors_strict : ∀ s, (st.successors s).Pairwise (· < ·)
  mem_successors : ∀ s t, t ∈ st.successors s ↔ .addEdge s t ∈ changes
  predecessors_strict : ∀ s, (st.predecessors s).Pairwise (· < ·)
  mem_predecessors : ∀ s t, t ∈ st.predecessors s ↔ .addEdge t s ∈ changes
  sortedEdges_strict : st.sortedEdges.Pairwise fun a b =>
    a.caller < b.caller ∨ a.caller = b.caller ∧ a.callee < b.callee
  mem_sortedEdges : ∀ u v, ⟨u, v⟩ ∈ st.sortedEdges ↔ .addEdge u v ∈ changes

theorem InStep.index?_iff {st : GraphStore} (h : st.InStep) {s : Signature} {i : Nat} :
    st.index? s = some i ↔ ∃ node, st.nodes[i]? = some node ∧ node.signature = s := by
  rw [h.index?_eq_some, signature?, Option.map_eq_some_iff]

theorem InStep.hasNode_iff {st : GraphStore} (h : st.InStep) {s : Signature} :
    st.hasNode s = true ↔ ∃ i < st.nodes.length, st.index? s = some i := by
  rw [hasNode, SortedMap.contains, Option.isSome_iff_exists]
  constructor
  · rintro ⟨i, hi⟩
    exact ⟨i, h.lt_length hi, hi⟩
  · rintro ⟨i, -, hi⟩
    exact ⟨i, hi⟩

theorem InStep.existsUnique_index {st : GraphStore} (h : st.InStep) {i : Nat}
    (hi : i < st.nodes.length) : ∃! s, st.index? s = some i := by
  refine ⟨st.nodes[i].signature, ?_, ?_⟩
  · exact h.index?_iff.mpr ⟨_, List.getElem?_eq_getElem hi, rfl⟩
  · intro s hs
    obtain ⟨node, hnode, rfl⟩ := h.index?_iff.mp hs
    rw [List.getElem?_eq_getElem hi] at hnode
    rw [Option.some.inj hnode]

theorem index?_changes {st : GraphStore} (h : st.InStep) {s : Signature} {i : Nat}
    (hi : st.index? s = some i) (more : List Change) :
    (more.foldl change st).index? s = some i := by
  have hrun := foldl_change_toGraphStore ⟨st, h⟩ more
  rw [hrun]
  exact CallGraph.index?_changes (g := ⟨st, h⟩) hi more

theorem insertNode_fst {st : GraphStore} {node : GraphNode} {i : Nat}
    (hi : st.index? node.signature = some i) : (st.insertNode node).1 = i := by
  simp only [insertNode, hi]

/-- After every run of operations the map and the nodes are in step, and the store records the run:
indices count the signatures as they were first mentioned and stay with them, nodes are what they
were made at first, and the edges are those that were added, each once. -/
theorem run_records (changes : List Change) : Records changes (ofChanges changes) := by
  have hstep : (ofChanges changes).InStep := InStep.empty.changes changes
  have hg := CallGraph.wellFormed_ofChanges changes
  have hedge : ∀ {u v}, (ofChanges changes).hasEdge u v = true ↔ .addEdge u v ∈ changes := by
    intro u v
    rw [ofChanges_eq, CallGraph.hasEdge_ofChanges]
  have hinsert : ∀ node (more : List Change),
      (more.foldl change ((ofChanges changes).insertNode node).2).index? node.signature =
        some ((ofChanges changes).insertNode node).1 := fun node =>
    index?_changes (hstep.insertNode node) (index?_insertNode _ node)
  exact {
    index_iff := fun s i => hstep.index?_iff
    hasNode_iff := fun s => hstep.hasNode_iff
    index_unique := fun i hi => hstep.existsUnique_index hi
    index_eq := fun s => by
      rw [ofChanges_eq, CallGraph.index?_eq, CallGraph.listed_ofChanges]
    index_stays := fun more s i hi => index?_changes hstep hi more
    insertNode_index := hinsert
    insertNode_again := by
      intro node more again hsame
      exact insertNode_fst (hsame ▸ hinsert node more)
    node_eq := by
      rintro before c after s rfl hbefore hc
      rw [ofChanges_eq]
      exact CallGraph.node?_ofChanges hbefore hc
    hasEdge_iff := fun u v => hedge
    addEdge_iff := fun u v => by
      have hnew := (CallGraph.ofChanges changes).addEdge_isNew u v
      rw [← hedge, ofChanges_eq]
      change (CallGraph.addEdge _ u v).1 = true ↔ _
      rw [hnew, Bool.not_eq_true', Bool.not_eq_true]
    edge_count := by
      rw [ofChanges_eq, ← CallGraph.length_edges, CallGraph.edge_count_ofChanges]
    successors_strict := by
      rw [ofChanges_eq]
      exact hg.successors_strict
    mem_successors := fun s t => by rw [← hedge, ofChanges_eq, CallGraph.mem_successors]
    predecessors_strict := by
      rw [ofChanges_eq]
      exact hg.predecessors_strict
    mem_predecessors := fun s t => by rw [← hedge, ofChanges_eq, CallGraph.mem_predecessors]
    sortedEdges_strict := by
      rw [ofChanges_eq]
      exact hg.sortedEdges_strict
    mem_sortedEdges := fun u v => by
      rw [← hedge, sortedEdges, mem_sortBy, ofChanges_eq, CallGraph.hasEdge_iff] }

end GraphStore

end CallTrace
