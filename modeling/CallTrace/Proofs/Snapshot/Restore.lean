import CallTrace.Proofs.CallGraph.Content
import CallTrace.Proofs.CallTree.Occurrence
import CallTrace.Snapshot.Restore

/-!
Restoring takes exactly the nodes and links of the trees into a graph. What is there keeps its place
and file; a layer is filled in by the first tree node that knows one.
-/

namespace CallTrace

def Restore.Runs (m : RestoreM Unit) (g after : CallGraph) : Prop :=
  m.run.run g = (.ok (), after)

namespace Restore.Runs

theorem pure (g : CallGraph) : Runs (Pure.pure ()) g g := rfl

theorem modify (f : CallGraph → CallGraph) (g : CallGraph) : Runs (modify f) g (f g) := rfl

theorem bind {m : RestoreM Unit} {n : Unit → RestoreM Unit} {g middle after : CallGraph}
    (hm : Runs m g middle) (hn : Runs (n ()) middle after) : Runs (m >>= n) g after := by
  unfold Runs at hm hn ⊢
  simp only [ExceptT.run_bind, StateT.run_bind, hm]
  exact hn

end Restore.Runs

/-- A tree node is taken up: it makes a node if there is none, and gives an unknown layer its own. -/
def GraphNode.takeUp (known : Option GraphNode) (tree : CallTree) : Option GraphNode :=
  match known with
  | none =>
      some
        ⟨tree.signature, (Signature.owner? tree.signature).getD unknownText, unknownText,
          tree.layer⟩
  | some node => some (if node.layer.isUnknown then { node with layer := tree.layer } else node)

namespace GraphNode

theorem foldl_takeUp_eq {visited : List CallTree} {n : GraphNode}
    (h : ∀ tree ∈ visited, tree.layer = n.layer) :
    visited.foldl takeUp (some n) = some n := by
  induction visited with
  | nil => rfl
  | cons tree rest ih =>
      have hstep : takeUp (some n) tree = some n := by
        simp [takeUp, h tree List.mem_cons_self]
      rw [List.foldl_cons, hstep]
      exact ih fun t ht => h t (List.mem_cons_of_mem _ ht)

theorem foldl_takeUp_layer {visited : List CallTree} {known : Option GraphNode} {layer : Layer}
    (hknown : ∀ n, known = some n → n.layer = layer ∨ n.layer.isUnknown = true)
    (hvisited : visited ≠ []) (h : ∀ tree ∈ visited, tree.layer = layer) :
    ∃ n, visited.foldl takeUp known = some n ∧ n.layer = layer := by
  cases visited with
  | nil => contradiction
  | cons tree rest =>
      obtain ⟨n, hn, hlayer⟩ : ∃ n, takeUp known tree = some n ∧ n.layer = layer := by
        have htree := h tree List.mem_cons_self
        cases known with
        | none => exact ⟨_, rfl, htree⟩
        | some n =>
            refine ⟨_, rfl, ?_⟩
            rcases hknown n rfl with hlayer | hunknown
            · split <;> simp [htree, hlayer]
            · simp [hunknown, htree]
      refine ⟨n, ?_, hlayer⟩
      rw [List.foldl_cons, hn]
      apply foldl_takeUp_eq
      intro t ht
      rw [hlayer]
      exact h t (List.mem_cons_of_mem _ ht)

end GraphNode

namespace CallGraph

theorem node?_restoreNode (g : CallGraph) (tree : CallTree) (s : Signature) :
    (g.restoreNode tree).node? s =
      if tree.signature = s then GraphNode.takeUp (g.node? s) tree else g.node? s := by
  unfold restoreNode
  split
  · rename_i hnone
    rw [node?_insertNode]
    split
    · rename_i heq
      subst heq
      rw [hnone]
      rfl
    · rw [Option.or_none]
  · rename_i node hnode
    split
    · rename_i hunknown
      rw [node?_setLayer]
      by_cases heq : tree.signature = s
      · subst heq
        simp [hnode, GraphNode.takeUp, hunknown]
      · rw [if_neg heq, if_neg (Ne.symm heq)]
    · rename_i hknown
      split
      · rename_i heq
        subst heq
        simp [hnode, GraphNode.takeUp, hknown]
      · rfl

@[simp] theorem hasEdge_restoreNode (g : CallGraph) (tree : CallTree) (u v : Signature) :
    (g.restoreNode tree).hasEdge u v = g.hasEdge u v := by
  unfold restoreNode
  split
  · exact hasEdge_insertNode ..
  · split
    · exact hasEdge_setLayer ..
    · rfl

theorem WellFormed.restoreNode {g : CallGraph} (hg : g.WellFormed) (tree : CallTree) :
    (g.restoreNode tree).WellFormed := by
  unfold CallGraph.restoreNode
  split
  · exact hg.insertNode _
  · split
    · exact hg.setLayer _ _
    · exact hg

end CallGraph

/-- The second graph is the first with these tree nodes taken up, in order, and these links. -/
structure Absorbs (g after : CallGraph) (visited : List CallTree) (links : List CallEdge) :
    Prop where
  node : ∀ s, after.node? s =
    (visited.filter fun tree => tree.signature == s).foldl GraphNode.takeUp (g.node? s)
  edge : ∀ u v, after.hasEdge u v = true ↔ g.hasEdge u v = true ∨ ⟨u, v⟩ ∈ links
  wellFormed : g.WellFormed → after.WellFormed

namespace Absorbs

theorem refl (g : CallGraph) : Absorbs g g [] [] where
  node _ := rfl
  edge u v := by simp
  wellFormed := id

theorem trans {g middle after : CallGraph} {visited visited' : List CallTree}
    {links links' : List CallEdge} (hfirst : Absorbs g middle visited links)
    (hsecond : Absorbs middle after visited' links') :
    Absorbs g after (visited ++ visited') (links ++ links') where
  node s := by
    rw [hsecond.node, hfirst.node, List.filter_append, List.foldl_append]
  edge u v := by
    rw [hsecond.edge, hfirst.edge, List.mem_append, or_assoc]
  wellFormed hg := hsecond.wellFormed (hfirst.wellFormed hg)

theorem ofNode (g : CallGraph) (tree : CallTree) :
    Absorbs g (g.restoreNode tree) [tree] [] where
  node s := by
    rw [CallGraph.node?_restoreNode]
    by_cases heq : tree.signature = s <;> simp [heq]
  edge u v := by simp
  wellFormed hg := hg.restoreNode tree

theorem ofLink {g : CallGraph} {u v : Signature} (hu : g.hasNode u = true)
    (hv : g.hasNode v = true) : Absorbs g (g.link u v) [] [⟨u, v⟩] where
  node s := CallGraph.node?_link hu hv s
  edge a b := by
    rw [CallGraph.hasEdge_link, List.mem_singleton, CallEdge.mk.injEq]
  wellFormed hg := hg.link u v

theorem isSome_foldl_takeUp (visited : List CallTree) (known : Option GraphNode) :
    (visited.foldl GraphNode.takeUp known).isSome = (known.isSome || !visited.isEmpty) := by
  induction visited generalizing known with
  | nil => simp
  | cons tree rest ih =>
      rw [List.foldl_cons, ih]
      cases known <;> simp [GraphNode.takeUp]

theorem hasNode_iff {g after : CallGraph} {visited : List CallTree} {links : List CallEdge}
    (h : Absorbs g after visited links) {s : Signature} :
    after.hasNode s = true ↔ g.hasNode s = true ∨ ∃ tree ∈ visited, tree.signature = s := by
  rw [← CallGraph.isSome_node?, h.node, isSome_foldl_takeUp, CallGraph.isSome_node?]
  simp

theorem hasNode_mono {g after : CallGraph} {visited : List CallTree} {links : List CallEdge}
    (h : Absorbs g after visited links) {s : Signature} (hs : g.hasNode s = true) :
    after.hasNode s = true :=
  h.hasNode_iff.mpr (.inl hs)

end Absorbs

def Restored (g after : CallGraph) (trees : List CallTree) : Prop :=
  ∃ visited links, Absorbs g after visited links ∧
    (∀ node, node ∈ visited ↔ ∃ tree ∈ trees, tree.HasNode node) ∧
    ∀ u v, ⟨u, v⟩ ∈ links ↔ ∃ tree ∈ trees, tree.Links u v

namespace Restored

theorem nil (g : CallGraph) : Restored g g [] :=
  ⟨[], [], .refl g, by simp, by simp⟩

theorem trans {g middle after : CallGraph} {first second : List CallTree}
    (hfirst : Restored g middle first) (hsecond : Restored middle after second) :
    Restored g after (first ++ second) := by
  obtain ⟨visited, links, habsorbs, hvisited, hlinks⟩ := hfirst
  obtain ⟨visited', links', habsorbs', hvisited', hlinks'⟩ := hsecond
  refine ⟨_, _, habsorbs.trans habsorbs', ?_, ?_⟩
  · intro node
    rw [List.mem_append, hvisited, hvisited']
    simp only [List.mem_append, or_and_right, exists_or]
  · intro u v
    rw [List.mem_append, hlinks, hlinks']
    simp only [List.mem_append, or_and_right, exists_or]

theorem of_mem_iff {g after : CallGraph} {trees trees' : List CallTree}
    (h : Restored g after trees) (hmem : ∀ tree, tree ∈ trees ↔ tree ∈ trees') :
    Restored g after trees' := by
  obtain ⟨visited, links, habsorbs, hvisited, hlinks⟩ := h
  refine ⟨visited, links, habsorbs, ?_, ?_⟩
  · intro node
    simp only [hvisited, hmem]
  · intro u v
    simp only [hlinks, hmem]

theorem wellFormed {g after : CallGraph} {trees : List CallTree} (h : Restored g after trees)
    (hg : g.WellFormed) : after.WellFormed := by
  obtain ⟨visited, links, habsorbs, -, -⟩ := h
  exact habsorbs.wellFormed hg

theorem hasNode_iff {g after : CallGraph} {trees : List CallTree} (h : Restored g after trees)
    {s : Signature} :
    after.hasNode s = true ↔ g.hasNode s = true ∨ ∃ tree ∈ trees, s ∈ tree.signatures := by
  obtain ⟨visited, links, habsorbs, hvisited, -⟩ := h
  rw [habsorbs.hasNode_iff]
  simp only [hvisited, CallTree.mem_signatures]
  constructor
  · intro hcase
    rcases hcase with hs | ⟨node, ⟨tree, htree, hnode⟩, hsignature⟩
    · exact .inl hs
    · exact .inr ⟨tree, htree, node, hnode, hsignature⟩
  · intro hcase
    rcases hcase with hs | ⟨tree, htree, node, hnode, hsignature⟩
    · exact .inl hs
    · exact .inr ⟨node, ⟨tree, htree, hnode⟩, hsignature⟩

theorem hasEdge_iff {g after : CallGraph} {trees : List CallTree} (h : Restored g after trees)
    {u v : Signature} :
    after.hasEdge u v = true ↔ g.hasEdge u v = true ∨ ∃ tree ∈ trees, tree.Links u v := by
  obtain ⟨visited, links, habsorbs, -, hlinks⟩ := h
  rw [habsorbs.edge, hlinks]

theorem node?_eq {g after : CallGraph} {trees : List CallTree} (h : Restored g after trees)
    {s : Signature} {n : GraphNode} (hn : g.node? s = some n)
    (hlayer : ∀ tree ∈ trees, ∀ node, tree.HasNode node → node.signature = s →
      node.layer = n.layer) : after.node? s = some n := by
  obtain ⟨visited, links, habsorbs, hvisited, -⟩ := h
  rw [habsorbs.node, hn]
  apply GraphNode.foldl_takeUp_eq
  intro node hnode
  simp only [List.mem_filter, beq_iff_eq] at hnode
  obtain ⟨tree, htree, hbelow⟩ := (hvisited node).mp hnode.1
  exact hlayer tree htree node hbelow hnode.2

theorem layerOf_eq {g after : CallGraph} {trees : List CallTree} (h : Restored g after trees)
    {s : Signature} {layer : Layer}
    (hbefore : ∀ n, g.node? s = some n → n.layer = layer ∨ n.layer.isUnknown = true)
    (hlayer : ∀ tree ∈ trees, ∀ node, tree.HasNode node → node.signature = s →
      node.layer = layer)
    (hshown : ∃ tree ∈ trees, s ∈ tree.signatures) : after.layerOf s = layer := by
  obtain ⟨visited, links, habsorbs, hvisited, -⟩ := h
  obtain ⟨tree, htree, hs⟩ := hshown
  obtain ⟨node, hnode, hsignature⟩ := CallTree.mem_signatures.mp hs
  have hmem : node ∈ visited.filter fun tree => tree.signature == s := by
    simpa [hvisited] using ⟨⟨tree, htree, hnode⟩, hsignature⟩
  obtain ⟨n, hn, hlayerOf⟩ := GraphNode.foldl_takeUp_layer hbefore (List.ne_nil_of_mem hmem)
    (by
      intro other hother
      simp only [List.mem_filter, beq_iff_eq] at hother
      obtain ⟨tree, htree, hbelow⟩ := (hvisited other).mp hother.1
      exact hlayer tree htree other hbelow hother.2)
  rw [CallGraph.layerOf_eq, habsorbs.node, hn]
  exact hlayerOf

end Restored

/-- No signature is blank, and nothing stands below a circular node. -/
def CallTree.Restorable (tree : CallTree) : Prop :=
  ∀ node, tree.HasNode node →
    Text.isBlank node.signature = false ∧ (node.circular = true → node.children = [])

theorem CallTree.Restorable.child {tree child : CallTree} (h : tree.Restorable)
    (hchild : child ∈ tree.children) : child.Restorable :=
  fun node hnode => h node (.inner hchild hnode)

namespace Restore

theorem runs_child {parent : Signature} {tree : CallTree}
    (hblank : Text.isBlank tree.signature = false) (g : CallGraph) :
    Runs (child parent tree) g ((g.restoreNode tree).link parent tree.signature) := by
  unfold child
  rw [hblank]
  exact .modify _ g

theorem absorbs_children {parent : Signature} (children : List CallTree)
    (hblank : ∀ tree ∈ children, Text.isBlank tree.signature = false) {g : CallGraph}
    (hparent : g.hasNode parent = true) :
    ∃ after, Runs (children.forM (child parent)) g after ∧
      Absorbs g after children (children.map fun tree => ⟨parent, tree.signature⟩) := by
  induction children generalizing g with
  | nil => exact ⟨g, .pure g, .refl g⟩
  | cons tree rest ih =>
      have hnode := Absorbs.ofNode g tree
      have htree : (g.restoreNode tree).hasNode tree.signature = true :=
        hnode.hasNode_iff.mpr (.inr ⟨tree, List.mem_singleton_self tree, rfl⟩)
      have hlink := Absorbs.ofLink (hnode.hasNode_mono hparent) htree
      have hstep := hnode.trans hlink
      obtain ⟨after, hruns, hrest⟩ :=
        ih (fun t ht => hblank t (List.mem_cons_of_mem _ ht)) (hstep.hasNode_mono hparent)
      exact ⟨after, .bind (runs_child (hblank tree List.mem_cons_self) g) hruns,
        hstep.trans hrest⟩

mutual

theorem restored_subtree (tree : CallTree) (htree : tree.Restorable) (g : CallGraph) :
    ∃ after, Runs (subtree tree) g after ∧ Restored g after [tree] := by
  cases tree with
  | mk s layer circular children entry =>
      have hroot := Absorbs.ofNode g ⟨s, layer, circular, children, entry⟩
      have hs : (g.restoreNode ⟨s, layer, circular, children, entry⟩).hasNode s = true :=
        hroot.hasNode_iff.mpr (.inr ⟨_, List.mem_singleton_self _, rfl⟩)
      have hblank : ∀ child ∈ children, Text.isBlank child.signature = false :=
        fun child hchild => (htree child (.inner hchild (.root child))).1
      obtain ⟨middle, hrunsChildren, hchildren⟩ := absorbs_children children hblank hs
      obtain ⟨after, hrunsBelow, visited, links, hbelow, hvisited, hlinks⟩ :=
        restored_subtreesFromLast children (fun child hchild => htree.child hchild) middle
      refine ⟨after, ?_, _, _, (hroot.trans hchildren).trans hbelow, ?_, ?_⟩
      · have hcircular : (circular && !children.isEmpty) = false := by
          cases circular with
          | false => rfl
          | true =>
              have hnone : children = [] := (htree _ (.root _)).2 rfl
              simp [hnone]
        rw [subtree, hcircular]
        exact .bind (.modify _ g) (.bind hrunsChildren hrunsBelow)
      · intro node
        simp only [List.mem_append, List.mem_singleton, hvisited, exists_eq_left]
        rw [CallTree.hasNode_iff]
        constructor
        · intro h
          rcases h with (rfl | hchild) | hnode
          · exact .inl rfl
          · exact .inr ⟨node, hchild, .root node⟩
          · exact .inr hnode
        · intro h
          rcases h with rfl | hnode
          · exact .inl (.inl rfl)
          · exact .inr hnode
      · intro u v
        simp only [List.mem_append, List.not_mem_nil, false_or, List.mem_map, CallEdge.mk.injEq,
          List.mem_singleton, exists_eq_left, hlinks]
        rw [CallTree.links_iff]
        refine or_congr_left ?_
        constructor
        · intro h
          obtain ⟨child, hchild, rfl, rfl⟩ := h
          exact ⟨rfl, List.mem_map.mpr ⟨child, hchild, rfl⟩⟩
        · intro h
          obtain ⟨rfl, hv⟩ := h
          obtain ⟨child, hchild, rfl⟩ := List.mem_map.mp hv
          exact ⟨child, hchild, rfl, rfl⟩

theorem restored_subtreesFromLast (trees : List CallTree)
    (htrees : ∀ tree ∈ trees, tree.Restorable) (g : CallGraph) :
    ∃ after, Runs (subtreesFromLast trees) g after ∧ Restored g after trees := by
  cases trees with
  | nil => exact ⟨g, .pure g, .nil g⟩
  | cons tree rest =>
      obtain ⟨middle, hruns, hrest⟩ :=
        restored_subtreesFromLast rest (fun t ht => htrees t (List.mem_cons_of_mem _ ht)) g
      obtain ⟨after, hruns', htree⟩ :=
        restored_subtree tree (htrees tree List.mem_cons_self) middle
      refine ⟨after, .bind hruns hruns', (hrest.trans htree).of_mem_iff ?_⟩
      intro t
      rw [List.mem_append, List.mem_singleton, List.mem_cons, or_comm]

end

def RootMatches (tree : CallTree) : Prop :=
  ∀ entry, tree.entryPoint = some entry → entry.signature = tree.signature

theorem restored_tree {root : CallTree} (hroot : root.Restorable) (hmatch : RootMatches root)
    (g : CallGraph) : ∃ after, Runs (tree root) g after ∧ Restored g after [root] := by
  obtain ⟨after, hruns, hrestored⟩ := restored_subtree root hroot g
  refine ⟨after, ?_, hrestored⟩
  have hblank := (hroot root (.root root)).1
  unfold tree
  rw [hblank]
  cases hentry : root.entryPoint with
  | none => exact hruns
  | some entry =>
      simp only [hmatch entry hentry, bne_self_eq_false]
      exact hruns

theorem restored_trees {trees : List CallTree} (htrees : ∀ root ∈ trees, root.Restorable)
    (hmatch : ∀ root ∈ trees, RootMatches root) (g : CallGraph) :
    ∃ after, Runs (trees.forM tree) g after ∧ Restored g after trees := by
  induction trees generalizing g with
  | nil => exact ⟨g, .pure g, .nil g⟩
  | cons root rest ih =>
      obtain ⟨middle, hruns, hroot⟩ :=
        restored_tree (htrees root List.mem_cons_self) (hmatch root List.mem_cons_self) g
      obtain ⟨after, hruns', hrest⟩ :=
        ih (fun t ht => htrees t (List.mem_cons_of_mem _ ht))
          (fun t ht => hmatch t (List.mem_cons_of_mem _ ht)) middle
      exact ⟨after, .bind hruns hruns', hroot.trans hrest⟩

def entryNode (entry : EntryPoint) : GraphNode :=
  ⟨entry.signature, entry.className, entry.filePath, .unknown⟩

theorem runs_entryPoints {entries : List EntryPoint}
    (hblank : ∀ entry ∈ entries, Text.isBlank entry.signature = false) (g : CallGraph) :
    Runs (entries.forM entryPoint) g (g.insertNodes entryNode entries) := by
  induction entries generalizing g with
  | nil => exact .pure g
  | cons entry rest ih =>
      have hentry : Runs (entryPoint entry) g (g.insertNode (entryNode entry)) := by
        unfold entryPoint
        rw [hblank entry List.mem_cons_self]
        exact .modify _ g
      exact .bind hentry (ih (fun e he => hblank e (List.mem_cons_of_mem _ he)) _)

/-- Restoring succeeds on trees and entry points with nothing wrong, and takes them up. -/
theorem restored_graph {trees : List CallTree} {entries : List EntryPoint}
    (hblank : ∀ entry ∈ entries, Text.isBlank entry.signature = false)
    (htrees : ∀ root ∈ trees, root.Restorable) (hmatch : ∀ root ∈ trees, RootMatches root)
    (g : CallGraph) :
    ∃ after, graph g trees entries = .ok after ∧
      Restored (g.insertNodes entryNode entries) after trees := by
  obtain ⟨after, hruns, hrestored⟩ :=
    restored_trees htrees hmatch (g.insertNodes entryNode entries)
  have hall : Runs (all trees entries) g after := .bind (runs_entryPoints hblank g) hruns
  refine ⟨after, ?_, hrestored⟩
  unfold graph into
  rw [hall]

end Restore

end CallTrace
