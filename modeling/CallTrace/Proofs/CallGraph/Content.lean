import CallTrace.Proofs.CallGraph.Indices

/-!
What a call graph holds: how each operation changes the answers to lookups, and the well-formedness
that every run of operations keeps.
-/

namespace CallTrace.CallGraph

open GraphStore (index? hasNode node? hasEdge edges successors predecessors signatures sortedEdges)

@[simp] theorem isSome_node? (g : CallGraph) (s : Signature) :
    (g.node? s).isSome = g.hasNode s := by
  rw [Bool.eq_iff_iff, hasNode_iff, Option.isSome_iff_exists]
  exact exists_congr fun n => node?_eq_some

theorem signature_of_node? {g : CallGraph} {s : Signature} {n : GraphNode}
    (h : g.node? s = some n) : n.signature = s :=
  (node?_eq_some.mp h).2

theorem exists_node?_of_hasNode {g : CallGraph} {s : Signature} (h : g.hasNode s = true) :
    ∃ n, g.node? s = some n := by
  rw [← isSome_node?] at h
  exact Option.isSome_iff_exists.mp h

theorem layerOf_eq (g : CallGraph) (s : Signature) :
    g.layerOf s = ((g.node? s).map fun n => n.layer).getD .unknown := by
  unfold layerOf
  cases g.node? s <;> rfl

@[simp] theorem node?_empty (s : Signature) : empty.node? s = none := rfl

@[simp] theorem hasNode_empty (s : Signature) : empty.hasNode s = false := rfl

@[simp] theorem hasEdge_empty (u v : Signature) : empty.hasEdge u v = false := rfl

def ensureNode (g : CallGraph) (s : Signature) : CallGraph :=
  g.insertNode (.unknown s)

theorem index?_eq_none {g : CallGraph} {s : Signature} :
    g.index? s = none ↔ g.hasNode s = false := by
  rw [hasNode, SortedMap.contains, Option.isSome_eq_false_iff, Option.isNone_iff_eq_none]
  rfl

theorem insertNode_eq_self {g : CallGraph} {node : GraphNode}
    (h : g.hasNode node.signature = true) : g.insertNode node = g := by
  obtain ⟨i, hi⟩ := Option.isSome_iff_exists.mp h
  have hindex : g.index? node.signature = some i := hi
  simp only [insertNode, addNode, GraphStore.insertNode, hindex]

theorem nodes_insertNode (g : CallGraph) (node : GraphNode) :
    (g.insertNode node).nodes = if g.hasNode node.signature then g.nodes else g.nodes ++ [node] := by
  cases hnode : g.hasNode node.signature with
  | true => rw [insertNode_eq_self hnode, if_pos rfl]
  | false =>
      simp only [insertNode, addNode, GraphStore.insertNode, index?_eq_none.mpr hnode]
      rfl

theorem isPrefix_nodes_insertNode (g : CallGraph) (node : GraphNode) :
    g.nodes <+: (g.insertNode node).nodes := by
  rw [nodes_insertNode]
  split
  · exact List.prefix_rfl
  · exact List.prefix_append _ _

theorem arcs_insertNode (g : CallGraph) (node : GraphNode) :
    (g.insertNode node).arcs = g.arcs := by
  simp only [insertNode, addNode, GraphStore.insertNode]
  split <;> rfl

@[simp] theorem edges_insertNode (g : CallGraph) (node : GraphNode) :
    (g.insertNode node).edges = g.edges := by
  rw [edges, arcs_insertNode]
  exact filterMap_edge?_mono ((g.isPrefix_nodes_insertNode node).map _)

theorem node?_insertNode (g : CallGraph) (node : GraphNode) (s : Signature) :
    (g.insertNode node).node? s =
      (g.node? s).or (if node.signature = s then some node else none) := by
  cases hnode : g.hasNode node.signature with
  | true =>
      rw [insertNode_eq_self hnode]
      split
      · rename_i heq
        subst heq
        obtain ⟨n, hn⟩ := exists_node?_of_hasNode hnode
        rw [hn]
        rfl
      · rw [Option.or_none]
  | false =>
      rw [node?_eq_find?, nodes_insertNode, hnode, node?_eq_find?]
      simp [List.find?_append, List.find?_singleton]

@[simp] theorem hasNode_insertNode (g : CallGraph) (node : GraphNode) (s : Signature) :
    (g.insertNode node).hasNode s = (g.hasNode s || decide (node.signature = s)) := by
  rw [← isSome_node?, node?_insertNode, ← isSome_node?]
  split <;> simp [*]

@[simp] theorem hasEdge_insertNode (g : CallGraph) (node : GraphNode) (u v : Signature) :
    (g.insertNode node).hasEdge u v = g.hasEdge u v := by
  rw [Bool.eq_iff_iff, hasEdge_iff, hasEdge_iff, edges_insertNode]

@[simp] theorem hasNode_ensureNode (g : CallGraph) (u s : Signature) :
    (g.ensureNode u).hasNode s = (g.hasNode s || decide (u = s)) :=
  hasNode_insertNode g (.unknown u) s

@[simp] theorem hasEdge_ensureNode (g : CallGraph) (s u v : Signature) :
    (g.ensureNode s).hasEdge u v = g.hasEdge u v :=
  hasEdge_insertNode g (.unknown s) u v

@[simp] theorem edges_ensureNode (g : CallGraph) (s : Signature) :
    (g.ensureNode s).edges = g.edges :=
  edges_insertNode g (.unknown s)

theorem addEdge_eq (g : CallGraph) (u v : Signature) :
    ∃ arc, ((g.ensureNode u).ensureNode v).edge? arc = some ⟨u, v⟩ ∧
      g.toGraphStore.addEdge u v =
        if ((g.ensureNode u).ensureNode v).arcs.contains arc then
          (false, ((g.ensureNode u).ensureNode v).toGraphStore)
        else
          (true, { ((g.ensureNode u).ensureNode v).toGraphStore with
            arcs := ((g.ensureNode u).ensureNode v).arcs ++ [arc] }) := by
  refine ⟨⟨(g.toGraphStore.insertNode (.unknown u)).1,
    ((g.ensureNode u).toGraphStore.insertNode (.unknown v)).1⟩, ?_, ?_⟩
  · rw [edge?_eq_some]
    exact ⟨GraphStore.index?_insertNode_of_some (GraphStore.index?_insertNode _ (.unknown u)) _,
      GraphStore.index?_insertNode (g.ensureNode u).toGraphStore (.unknown v)⟩
  · rw [GraphStore.addEdge, GraphStore.ensureNode_eq, GraphStore.ensureNode_eq]
    rfl

theorem addEdge_isNew (g : CallGraph) (u v : Signature) :
    (g.addEdge u v).1 = !g.hasEdge u v := by
  obtain ⟨arc, hedge, hadd⟩ := g.addEdge_eq u v
  have hmem := mem_arcs_iff hedge
  simp only [hasEdge_ensureNode] at hmem
  simp only [addEdge, hadd]
  cases hold : g.hasEdge u v <;> simp_all

theorem nodes_link (g : CallGraph) (u v : Signature) :
    (g.link u v).nodes = ((g.ensureNode u).ensureNode v).nodes := by
  obtain ⟨arc, -, hadd⟩ := g.addEdge_eq u v
  simp only [link, addEdge, hadd]
  split <;> rfl

theorem edges_link (g : CallGraph) (u v : Signature) :
    (g.link u v).edges = if g.hasEdge u v then g.edges else g.edges ++ [⟨u, v⟩] := by
  obtain ⟨arc, hedge, hadd⟩ := g.addEdge_eq u v
  have hmem := mem_arcs_iff hedge
  have hedges : ((g.ensureNode u).ensureNode v).edges = g.edges := by simp
  simp only [hasEdge_ensureNode] at hmem
  simp only [link, addEdge, hadd, List.contains_eq_mem]
  by_cases hold : g.hasEdge u v = true
  · simp [hmem.mpr hold, hold]
  · have hnew : arc ∉ ((g.ensureNode u).ensureNode v).arcs := mt hmem.mp hold
    rw [if_neg (by simpa using hnew), if_neg hold]
    refine (List.filterMap_append ..).trans ?_
    rw [List.filterMap_cons_some (b := ⟨u, v⟩) hedge]
    exact congrArg (· ++ [⟨u, v⟩]) hedges

@[simp] theorem hasNode_link (g : CallGraph) (u v s : Signature) :
    (g.link u v).hasNode s = (g.hasNode s || decide (u = s) || decide (v = s)) := by
  rw [← hasNode_ensureNode, ← hasNode_ensureNode, Bool.eq_iff_iff, hasNode_iff, hasNode_iff,
    nodes_link]

theorem hasEdge_link {g : CallGraph} {u v a b : Signature} :
    (g.link u v).hasEdge a b = true ↔ g.hasEdge a b = true ∨ a = u ∧ b = v := by
  rw [hasEdge_iff, edges_link]
  split
  · rename_i hedge
    rw [hasEdge_iff] at hedge ⊢
    constructor
    · exact .inl
    · intro hcase
      rcases hcase with h | ⟨rfl, rfl⟩
      · exact h
      · exact hedge
  · simp [hasEdge_iff]

theorem node?_link {g : CallGraph} {u v : Signature} (hu : g.hasNode u = true)
    (hv : g.hasNode v = true) (s : Signature) : (g.link u v).node? s = g.node? s := by
  have hsource : g.ensureNode u = g := insertNode_eq_self hu
  have htarget : g.ensureNode v = g := insertNode_eq_self hv
  rw [node?_eq_find?, nodes_link, hsource, htarget, ← node?_eq_find?]

def mapNodes (g : CallGraph) (f : GraphNode → GraphNode)
    (hf : ∀ n, (f n).signature = n.signature) : CallGraph where
  toGraphStore := { g.toGraphStore with nodes := g.nodes.map f }
  inStep := {
    index?_eq_some := by
      intro s i
      refine g.inStep.index?_eq_some.trans ?_
      simp [GraphStore.signature?, Function.comp_def, hf]
    ends_lt := by simpa using g.inStep.ends_lt }

theorem mapNodes_id (g : CallGraph) (hf : ∀ n : GraphNode, n.signature = n.signature) :
    g.mapNodes (fun n => n) hf = g :=
  toGraphStore_inj (by simp [mapNodes])

theorem mapNodes_mapNodes (g : CallGraph) {f k : GraphNode → GraphNode}
    (hf : ∀ n, (f n).signature = n.signature) (hk : ∀ n, (k n).signature = n.signature) :
    (g.mapNodes f hf).mapNodes k hk =
      g.mapNodes (fun n => k (f n)) fun n => (hk (f n)).trans (hf n) :=
  toGraphStore_inj (by simp [mapNodes, Function.comp_def])

theorem mapNodes_congr (g : CallGraph) {f k : GraphNode → GraphNode}
    {hf : ∀ n, (f n).signature = n.signature} {hk : ∀ n, (k n).signature = n.signature}
    (h : ∀ n ∈ g.nodes, f n = k n) : g.mapNodes f hf = g.mapNodes k hk :=
  toGraphStore_inj (by simp only [mapNodes, List.map_congr_left h])

section MapNodes

variable (g : CallGraph) {f : GraphNode → GraphNode} (hf : ∀ n, (f n).signature = n.signature)

theorem listed_mapNodes : (g.mapNodes f hf).listed = g.listed := by
  simp [mapNodes, listed, Function.comp_def, hf]

theorem node?_mapNodes (s : Signature) : (g.mapNodes f hf).node? s = (g.node? s).map f := by
  rw [node?_eq_find?, node?_eq_find?, mapNodes, List.find?_map]
  congr 2
  funext n
  simp [hf]

@[simp] theorem hasNode_mapNodes (s : Signature) :
    (g.mapNodes f hf).hasNode s = g.hasNode s := by
  rw [← isSome_node?, node?_mapNodes, Option.isSome_map, isSome_node?]

@[simp] theorem edges_mapNodes : (g.mapNodes f hf).edges = g.edges :=
  filterMap_edge?_mono (g := g) (listed_mapNodes g hf ▸ List.prefix_rfl)

@[simp] theorem hasEdge_mapNodes (u v : Signature) :
    (g.mapNodes f hf).hasEdge u v = g.hasEdge u v := by
  rw [Bool.eq_iff_iff, hasEdge_iff, hasEdge_iff, edges_mapNodes]

end MapNodes

def withLayer (s : Signature) (layer : Layer) (n : GraphNode) : GraphNode :=
  if n.signature = s then { n with layer } else n

theorem signature_withLayer (s : Signature) (layer : Layer) (n : GraphNode) :
    (withLayer s layer n).signature = n.signature := by
  unfold withLayer
  split <;> rfl

theorem index?_of_getElem? {g : CallGraph} {i : Nat} {n : GraphNode} (hn : g.nodes[i]? = some n) :
    g.index? n.signature = some i := by
  rw [index?_eq_some, listed, List.getElem?_map, hn]
  rfl

theorem nodes_setLayer (g : CallGraph) (s : Signature) (layer : Layer) :
    (g.toGraphStore.setLayer s layer).nodes = g.nodes.map (withLayer s layer) := by
  apply List.ext_getElem?
  intro j
  rw [List.getElem?_map]
  unfold GraphStore.setLayer
  cases hi : g.index? s with
  | none =>
      cases hn : g.nodes[j]? with
      | none => simp
      | some n =>
          have hne : n.signature ≠ s := by
            rintro rfl
            rw [index?_of_getElem? hn] at hi
            contradiction
          simp [withLayer, hne]
  | some i =>
      rw [List.getElem?_modify]
      cases hn : g.nodes[j]? with
      | none => rfl
      | some n =>
          have hsame : i = j ↔ n.signature = s := by
            constructor
            · rintro rfl
              rw [index?_eq_some, listed, List.getElem?_map, hn] at hi
              exact Option.some.inj hi
            · rintro rfl
              rw [index?_of_getElem? hn] at hi
              exact (Option.some.inj hi).symm
          simp [withLayer, hsame]

theorem setLayer_eq (g : CallGraph) (s : Signature) (layer : Layer) :
    g.setLayer s layer = g.mapNodes (withLayer s layer) (signature_withLayer s layer) := by
  have hstore : g.toGraphStore.setLayer s layer =
      { g.toGraphStore with nodes := (g.toGraphStore.setLayer s layer).nodes } := by
    unfold GraphStore.setLayer
    split <;> rfl
  rw [nodes_setLayer] at hstore
  exact toGraphStore_inj hstore

theorem node?_setLayer (g : CallGraph) (s : Signature) (layer : Layer) (t : Signature) :
    (g.setLayer s layer).node? t =
      if t = s then (g.node? t).map fun n => { n with layer } else g.node? t := by
  rw [setLayer_eq, node?_mapNodes]
  cases hnode : g.node? t with
  | none => simp
  | some n =>
      have hsignature := signature_of_node? hnode
      subst hsignature
      by_cases heq : n.signature = s <;> simp [withLayer, heq]

@[simp] theorem hasNode_setLayer (g : CallGraph) (s : Signature) (layer : Layer)
    (t : Signature) : (g.setLayer s layer).hasNode t = g.hasNode t := by
  rw [setLayer_eq, hasNode_mapNodes]

@[simp] theorem edges_setLayer (g : CallGraph) (s : Signature) (layer : Layer) :
    (g.setLayer s layer).edges = g.edges := by
  rw [setLayer_eq, edges_mapNodes]

@[simp] theorem hasEdge_setLayer (g : CallGraph) (s : Signature) (layer : Layer)
    (u v : Signature) : (g.setLayer s layer).hasEdge u v = g.hasEdge u v := by
  rw [setLayer_eq, hasEdge_mapNodes]

/-- One node a signature, one edge a pair, and no edge without its ends. -/
structure WellFormed (g : CallGraph) : Prop where
  nodes_nodup : (g.nodes.map fun n => n.signature).Nodup
  edges_nodup : g.edges.Nodup
  hasCaller : ∀ {u v}, g.hasEdge u v = true → g.hasNode u = true
  hasCallee : ∀ {u v}, g.hasEdge u v = true → g.hasNode v = true

theorem hasCaller_of_hasEdge {g : CallGraph} {u v : Signature} (h : g.hasEdge u v = true) :
    g.hasNode u = true := by
  obtain ⟨i, -, hi, -⟩ := hasEdge_iff_arc.mp h
  exact Option.isSome_iff_exists.mpr ⟨i, hi⟩

theorem hasCallee_of_hasEdge {g : CallGraph} {u v : Signature} (h : g.hasEdge u v = true) :
    g.hasNode v = true := by
  obtain ⟨-, j, -, hj, -⟩ := hasEdge_iff_arc.mp h
  exact Option.isSome_iff_exists.mpr ⟨j, hj⟩

theorem wellFormed_of_edges_nodup {g : CallGraph} (h : g.edges.Nodup) : g.WellFormed where
  nodes_nodup := g.nodup_listed
  edges_nodup := h
  hasCaller := hasCaller_of_hasEdge
  hasCallee := hasCallee_of_hasEdge

theorem wellFormed_empty : empty.WellFormed :=
  wellFormed_of_edges_nodup List.nodup_nil

theorem WellFormed.insertNode {g : CallGraph} (hg : g.WellFormed) (node : GraphNode) :
    (g.insertNode node).WellFormed := by
  apply wellFormed_of_edges_nodup
  rw [edges_insertNode]
  exact hg.edges_nodup

theorem WellFormed.link {g : CallGraph} (hg : g.WellFormed) (u v : Signature) :
    (g.link u v).WellFormed := by
  apply wellFormed_of_edges_nodup
  rw [edges_link]
  split
  · exact hg.edges_nodup
  · rename_i hnew
    rw [hasEdge_iff] at hnew
    simpa using List.Nodup.concat hnew hg.edges_nodup

theorem WellFormed.mapNodes {g : CallGraph} (hg : g.WellFormed) {f : GraphNode → GraphNode}
    (hf : ∀ n, (f n).signature = n.signature) : (g.mapNodes f hf).WellFormed := by
  apply wellFormed_of_edges_nodup
  rw [edges_mapNodes]
  exact hg.edges_nodup

theorem WellFormed.setLayer {g : CallGraph} (hg : g.WellFormed) (s : Signature)
    (layer : Layer) : (g.setLayer s layer).WellFormed := by
  rw [setLayer_eq]
  exact hg.mapNodes _

def insertNodes (g : CallGraph) (toNode : α → GraphNode) (items : List α) : CallGraph :=
  items.foldl (fun g item => g.insertNode (toNode item)) g

section InsertNodes

variable (g : CallGraph) (toNode : α → GraphNode) (items : List α)

theorem node?_insertNodes (s : Signature) :
    (g.insertNodes toNode items).node? s =
      (g.node? s).or ((items.find? fun item => (toNode item).signature == s).map toNode) := by
  unfold insertNodes
  induction items generalizing g with
  | nil => simp
  | cons item rest ih =>
      rw [List.foldl_cons, ih, node?_insertNode, Option.or_assoc, List.find?_cons]
      by_cases heq : (toNode item).signature = s
      · simp [heq]
      · rw [if_neg heq, Option.none_or, beq_false_of_ne heq]

theorem hasNode_insertNodes {s : Signature} :
    (g.insertNodes toNode items).hasNode s = true ↔
      g.hasNode s = true ∨ ∃ item ∈ items, (toNode item).signature = s := by
  rw [← isSome_node?, node?_insertNodes, Option.isSome_or, Option.isSome_map, isSome_node?]
  simp

@[simp] theorem edges_insertNodes : (g.insertNodes toNode items).edges = g.edges := by
  unfold insertNodes
  induction items generalizing g with
  | nil => rfl
  | cons item rest ih => rw [List.foldl_cons, ih, edges_insertNode]

@[simp] theorem hasEdge_insertNodes (u v : Signature) :
    (g.insertNodes toNode items).hasEdge u v = g.hasEdge u v := by
  rw [Bool.eq_iff_iff, hasEdge_iff, hasEdge_iff, edges_insertNodes]

end InsertNodes

theorem WellFormed.insertNodes {g : CallGraph} (hg : g.WellFormed) (toNode : α → GraphNode)
    (items : List α) : (g.insertNodes toNode items).WellFormed := by
  unfold CallGraph.insertNodes
  induction items generalizing g with
  | nil => exact hg
  | cons item rest ih => exact ih (hg.insertNode (toNode item))

inductive Change where
  | insertNode (node : GraphNode)
  | addEdge (caller callee : Signature)
  | setLayer (signature : Signature) (layer : Layer)
  deriving DecidableEq, Repr

def change (g : CallGraph) : Change → CallGraph
  | .insertNode node => g.insertNode node
  | .addEdge caller callee => g.link caller callee
  | .setLayer s layer => g.setLayer s layer

def ofChanges (changes : List Change) : CallGraph :=
  changes.foldl change empty

theorem WellFormed.change {g : CallGraph} (hg : g.WellFormed) (c : Change) :
    (g.change c).WellFormed := by
  cases c with
  | insertNode node => exact hg.insertNode node
  | addEdge caller callee => exact hg.link caller callee
  | setLayer s layer => exact hg.setLayer s layer

theorem WellFormed.changes {g : CallGraph} (hg : g.WellFormed) (changes : List Change) :
    (changes.foldl CallGraph.change g).WellFormed := by
  induction changes generalizing g with
  | nil => exact hg
  | cons c rest ih => exact ih (hg.change c)

theorem wellFormed_ofChanges (changes : List Change) : (ofChanges changes).WellFormed :=
  wellFormed_empty.changes changes

theorem hasEdge_changes {g : CallGraph} {changes : List Change} {u v : Signature} :
    (changes.foldl change g).hasEdge u v = true ↔
      g.hasEdge u v = true ∨ .addEdge u v ∈ changes := by
  induction changes generalizing g with
  | nil => simp
  | cons c rest ih =>
      rw [List.foldl_cons, ih]
      cases c with
      | insertNode node => simp [change]
      | addEdge caller callee => simp [change, hasEdge_link, or_assoc]
      | setLayer s layer => simp [change]

theorem hasEdge_ofChanges {changes : List Change} {u v : Signature} :
    (ofChanges changes).hasEdge u v = true ↔ .addEdge u v ∈ changes := by
  rw [ofChanges, hasEdge_changes]
  simp

def Change.Mentions (s : Signature) : Change → Prop
  | .insertNode node => node.signature = s
  | .addEdge caller callee => caller = s ∨ callee = s
  | .setLayer _ _ => False

theorem hasNode_changes {g : CallGraph} {changes : List Change} {s : Signature} :
    (changes.foldl change g).hasNode s = true ↔
      g.hasNode s = true ∨ ∃ c ∈ changes, c.Mentions s := by
  induction changes generalizing g with
  | nil => simp
  | cons c rest ih =>
      rw [List.foldl_cons, ih]
      cases c with
      | insertNode node => simp [change, Change.Mentions, or_assoc]
      | addEdge caller callee => simp [change, Change.Mentions, or_assoc]
      | setLayer s layer => simp [change, Change.Mentions]

theorem hasNode_ofChanges {changes : List Change} {s : Signature} :
    (ofChanges changes).hasNode s = true ↔ ∃ c ∈ changes, c.Mentions s := by
  rw [ofChanges, hasNode_changes]
  simp

@[simp] theorem mem_successors {g : CallGraph} {s t : Signature} :
    t ∈ g.successors s ↔ g.hasEdge s t = true := by
  simp only [successors_eq, sortSignatures, mem_sortBy, List.mem_map, List.mem_filter, beq_iff_eq,
    hasEdge_iff]
  constructor
  · intro h
    obtain ⟨⟨caller, callee⟩, ⟨he, rfl⟩, rfl⟩ := h
    exact he
  · intro he
    exact ⟨⟨s, t⟩, ⟨he, rfl⟩, rfl⟩

@[simp] theorem mem_predecessors {g : CallGraph} {s t : Signature} :
    t ∈ g.predecessors s ↔ g.hasEdge t s = true := by
  simp only [predecessors_eq, sortSignatures, mem_sortBy, List.mem_map, List.mem_filter, beq_iff_eq,
    hasEdge_iff]
  constructor
  · intro h
    obtain ⟨⟨caller, callee⟩, ⟨he, rfl⟩, rfl⟩ := h
    exact he
  · intro he
    exact ⟨⟨t, s⟩, ⟨he, rfl⟩, rfl⟩

@[simp] theorem mem_signatures {g : CallGraph} {s : Signature} :
    s ∈ g.signatures ↔ g.hasNode s = true := by
  rw [signatures, SortedMap.mem_keys, ← Option.isSome_iff_exists]
  rfl

theorem signatures_strict (g : CallGraph) : g.signatures.Pairwise (· < ·) :=
  List.pairwise_map.mpr g.indices.sorted

/-- Ends of edges that tell the edges apart are listed strictly sorted. -/
theorem WellFormed.ends_strict {g : CallGraph} (hg : g.WellFormed) {p : CallEdge → Bool}
    {last : CallEdge → Signature}
    (hlast : ∀ e e', p e = true → p e' = true → last e = last e' → e = e') :
    (sortSignatures ((g.edges.filter p).map last)).Pairwise (· < ·) := by
  apply sortSignatures_strict
  refine (hg.edges_nodup.filter _).map_on ?_
  intro e he e' he' heq
  exact hlast e e' (List.mem_filter.mp he).2 (List.mem_filter.mp he').2 heq

theorem WellFormed.successors_strict {g : CallGraph} (hg : g.WellFormed) (s : Signature) :
    (g.successors s).Pairwise (· < ·) := by
  rw [successors_eq]
  apply hg.ends_strict
  rintro ⟨_, _⟩ ⟨_, _⟩ he he' heq
  simp_all

theorem WellFormed.predecessors_strict {g : CallGraph} (hg : g.WellFormed) (s : Signature) :
    (g.predecessors s).Pairwise (· < ·) := by
  rw [predecessors_eq]
  apply hg.ends_strict
  rintro ⟨_, _⟩ ⟨_, _⟩ he he' heq
  simp_all

theorem WellFormed.sortedEdges_eq_iff {g h : CallGraph} (hg : g.WellFormed)
    (hh : h.WellFormed) :
    g.sortedEdges = h.sortedEdges ↔ ∀ u v, g.hasEdge u v = true ↔ h.hasEdge u v = true := by
  constructor
  · intro heq u v
    have hmem : (⟨u, v⟩ : CallEdge) ∈ g.sortedEdges ↔ ⟨u, v⟩ ∈ h.sortedEdges := by rw [heq]
    simpa [sortedEdges, ← hasEdge_iff] using hmem
  · intro hedges
    apply sortBy_eq_of_perm CallEdge.le_isOrder (fun _ _ => CallEdge.le_antisymm)
    rw [List.perm_ext_iff_of_nodup hg.edges_nodup hh.edges_nodup]
    intro hcase
    obtain ⟨u, v⟩ := hcase
    rw [← hasEdge_iff, ← hasEdge_iff]
    exact hedges u v

end CallTrace.CallGraph
