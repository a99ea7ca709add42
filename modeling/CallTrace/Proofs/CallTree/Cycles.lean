import CallTrace.Proofs.CallTree.Walk
import CallTrace.Proofs.Cycle.Components

/-!
Call trees and components tell of the same cycles. A leaf is circular when its parent's calls close
a walk; and a walk that never has to end closes before it is longer than there are nodes.
-/

namespace CallTrace.CallGraph

variable {g : CallGraph}

theorem WellFormed.exists_component (hg : g.WellFormed) {s t : Signature}
    (hedge : g.hasEdge s t = true) (hback : g.Reaches t s) :
    ∃ members ∈ g.components, s ∈ members ∧ t ∈ members := by
  have hcycle := onCycle_of_calls hedge hback
  have ht := hcycle.hasNode hg
  refine ⟨g.componentOf t, hg.mem_components.mpr ⟨t, hcycle, rfl⟩, ?_, ?_⟩
  · exact (hg.mem_componentOf ht).mpr ⟨hback, .single hedge⟩
  · exact (hg.mem_componentOf ht).mpr (.refl t)

/-- Some calls lead from the signature into a cycle. -/
def Endless (g : CallGraph) (s : Signature) : Prop :=
  ∃ t, g.Reaches s t ∧ g.OnCycle t

theorem ReachesIn.exists_first {n : Nat} {s t : Signature} (h : g.ReachesIn (n + 1) s t) :
    ∃ u, g.hasEdge s u = true ∧ g.ReachesIn n u t := by
  induction n generalizing t with
  | zero =>
      cases h with
      | call hnone hedge =>
          cases hnone
          exact ⟨t, hedge, .refl t⟩
  | succ n ih =>
      cases h with
      | call hinit hedge =>
          obtain ⟨u, hfirst, hrest⟩ := ih hinit
          exact ⟨u, hfirst, hrest.call hedge⟩

theorem Endless.exists_next {s : Signature} (h : g.Endless s) :
    ∃ u, g.hasEdge s u = true ∧ g.Endless u := by
  obtain ⟨t, ⟨n, hreach⟩, hcycle⟩ := h
  cases n with
  | zero =>
      cases hreach
      obtain ⟨n, hround⟩ := hcycle
      obtain ⟨u, hfirst, hrest⟩ := hround.exists_first
      exact ⟨u, hfirst, s, ⟨n, hrest⟩, n, hround⟩
  | succ n =>
      obtain ⟨u, hfirst, hrest⟩ := hreach.exists_first
      exact ⟨u, hfirst, t, ⟨n, hrest⟩, hcycle⟩

theorem WellFormed.endless_iff (hg : g.WellFormed) {s : Signature} :
    g.Endless s ↔ ∃ members ∈ g.components, ∃ t ∈ members, g.Reaches s t := by
  constructor
  · intro h
    obtain ⟨t, hreach, hcycle⟩ := h
    have ht := hcycle.hasNode hg
    exact ⟨g.componentOf t, hg.mem_components.mpr ⟨t, hcycle, rfl⟩, t,
      (hg.mem_componentOf ht).mpr (.refl t), hreach⟩
  · intro h
    obtain ⟨members, hmembers, t, ht, hreach⟩ := h
    obtain ⟨u, hcycle, rfl⟩ := hg.mem_components.mp hmembers
    exact ⟨t, hreach, hcycle.of_mutual ((hg.mem_componentOf (hcycle.hasNode hg)).mp ht)⟩

theorem WellFormed.length_le_of_nodup_walk (hg : g.WellFormed) {path : List Signature}
    {root v : Signature} (hroot : g.hasNode root = true) (hwalk : g.IsWalk (path ++ [v]))
    (hhead : (path ++ [v]).head? = some root) (hnodup : (path ++ [v]).Nodup) :
    path.length + 1 ≤ g.nodes.length := by
  have hlength := length_le_of_known hnodup fun t ht =>
    (hwalk.reaches_first hhead ht).hasNode hg hroot
  simpa using hlength

/-- A walk that repeats nothing and ends at an endless signature goes on until it closes. -/
theorem WellFormed.exists_closing (hg : g.WellFormed) {root : Signature}
    (hroot : g.hasNode root = true) {path : List Signature} {v : Signature}
    (hwalk : g.IsWalk (path ++ [v])) (hhead : (path ++ [v]).head? = some root)
    (hnodup : (path ++ [v]).Nodup) (hendless : g.Endless v) :
    ∃ closing w, g.ShowsBelow g.nodes.length [] root closing w ∧ w ∈ closing := by
  have hlength := hg.length_le_of_nodup_walk hroot hwalk hhead hnodup
  obtain ⟨w, hedge, hrest⟩ := hendless.exists_next
  have hnext : g.IsWalk (path ++ [v] ++ [w]) := isWalk_concat_concat.mpr ⟨hwalk, hedge⟩
  have hfirst : (path ++ [v] ++ [w]).head? = some root := by
    rw [List.head?_append, hhead]
    rfl
  by_cases hclosed : w ∈ path ++ [v]
  · refine ⟨path ++ [v], w, ⟨hnext, hfirst, ?_, by simpa using hnodup⟩, hclosed⟩
    simpa using hlength
  · have hlonger : (path ++ [v] ++ [w]).Nodup := by simpa using List.Nodup.concat hclosed hnodup
    exact hg.exists_closing hroot hnext hfirst hlonger hrest
termination_by g.nodes.length - path.length
decreasing_by
  rw [List.length_append, List.length_singleton]
  omega

theorem branch_child {levels : Nat} {path : List Signature} {u : Signature} {child : CallTree}
    (hchild : child ∈ (g.branch levels path u).children) :
    ∃ t, g.hasEdge u t = true ∧ child.signature = t ∧
      (child.circular = true ↔ t ∈ u :: path) := by
  unfold branch at hchild
  split at hchild
  · simp [CallTree.circularLeaf] at hchild
  · cases levels with
    | zero => simp [unfold] at hchild
    | succ levels =>
        rw [unfold_succ] at hchild
        obtain ⟨t, ht, rfl⟩ := List.mem_map.mp hchild
        exact ⟨t, mem_successors.mp ht, branch_signature .., branch_circular ..⟩

theorem WellFormed.circular_child (hg : g.WellFormed) {depth : Nat} {root : Signature}
    {parent child : CallTree} (hparent : (g.unfold depth [root] root).HasNode parent)
    (hchild : child ∈ parent.children) (hcircular : child.circular = true) :
    ∃ members ∈ g.components, parent.signature ∈ members ∧ child.signature ∈ members := by
  obtain ⟨path, u, hshows, rfl⟩ := hasNode_unfold.mp hparent
  obtain ⟨t, hedge, hsignature, hiff⟩ := branch_child hchild
  have ht : t ∈ path ++ [u] := by
    simpa [or_comm] using hiff.mp hcircular
  rw [branch_signature, hsignature]
  exact hg.exists_component hedge (hshows.walk.reaches_last ht)

theorem ShowsBelow.endless {depth : Nat} {root v : Signature} {path : List Signature}
    (hshows : g.ShowsBelow depth [] root path v) (hv : v ∈ path) : g.Endless root := by
  obtain ⟨path, w, rfl⟩ : ∃ path' w, path = path' ++ [w] :=
    ⟨_, _, (List.dropLast_append_getLast (List.ne_nil_of_mem hv)).symm⟩
  obtain ⟨hinit, hedge⟩ := isWalk_concat_concat.mp hshows.walk
  exact ⟨v, ⟨_, hshows.reachesIn⟩, onCycle_of_calls hedge (hinit.reaches_last hv)⟩

theorem WellFormed.exists_circular_iff (hg : g.WellFormed) {depth : Nat} {root : Signature}
    (hroot : g.hasNode root = true) (hdepth : g.nodes.length ≤ depth) :
    (∃ node, (g.unfold depth [root] root).HasNode node ∧ node.circular = true) ↔
      g.Endless root := by
  constructor
  · intro h
    obtain ⟨node, hnode, hcircular⟩ := h
    obtain ⟨path, v, hshows, rfl⟩ := hasNode_unfold.mp hnode
    rw [branch_circular, List.mem_reverse] at hcircular
    exact hshows.endless hcircular
  · intro hendless
    have hwalk : g.IsWalk ([] ++ [root]) := by simp [IsWalk]
    obtain ⟨closing, w, hshows, hclosed⟩ :=
      hg.exists_closing hroot hwalk rfl (List.nodup_singleton root) hendless
    have hshown : g.ShowsBelow depth [] root closing w :=
      { hshows with length := hshows.length.trans hdepth }
    refine ⟨_, hasNode_unfold.mpr ⟨closing, w, hshown, rfl⟩, ?_⟩
    rw [branch_circular, List.mem_reverse]
    exact hclosed

/-- Trees and components agree on cycles. In a graph that any run of operations has made, a tree
that is at least as deep as there are nodes has a circular leaf exactly if its root reaches a
component. In a tree of any depth a circular leaf stands below a parent of its own component. -/
theorem circular_leaves_meet_components (changes : List Change) (root : Signature)
    (maxDepth : UInt64) (hroot : (ofChanges changes).hasNode root = true) :
    ∃ tree, (ofChanges changes).tree? root maxDepth.toNat = some tree ∧
      ((ofChanges changes).nodes.length ≤ maxDepth.toNat →
        ((∃ node, tree.HasNode node ∧ node.circular = true) ↔
          ∃ members ∈ (ofChanges changes).components, ∃ s ∈ members,
            (ofChanges changes).Reaches root s)) ∧
      tree.circular = false ∧
      ∀ parent child, tree.HasNode parent → child ∈ parent.children → child.circular = true →
        ∃ members ∈ (ofChanges changes).components,
          parent.signature ∈ members ∧ child.signature ∈ members := by
  have hg := wellFormed_ofChanges changes
  refine ⟨_, tree?_eq_some maxDepth.toNat_lt hroot, ?_, unfold_circular .., ?_⟩
  · intro hdepth
    rw [hg.exists_circular_iff hroot hdepth, hg.endless_iff]
  · intro parent child hparent hchild hcircular
    exact hg.circular_child hparent hchild hcircular

def cycleBelow : List Change :=
  [.addEdge "Job.run" "A.a", .addEdge "A.a" "B.b", .addEdge "B.b" "A.a"]

theorem circular_leaves_meet_components_below :
    ∃ tree, (ofChanges cycleBelow).tree? "Job.run" 3 = some tree ∧
      (∃ node, tree.HasNode node ∧ node.circular = true) ∧
      ∀ child, ⟨"B.b", .unknown, false, [child], none⟩ ∈ tree.children.flatMap (·.children) →
        child.circular = true →
          ∃ members ∈ (ofChanges cycleBelow).components,
            "B.b" ∈ members ∧ child.signature ∈ members := by
  obtain ⟨tree, htree, hcircular, -, hparents⟩ :=
    circular_leaves_meet_components cycleBelow "Job.run" 3 (by decide)
  refine ⟨tree, htree, (hcircular (by decide)).mpr ?_, ?_⟩
  · exact ⟨["A.a", "B.b"], by decide, "A.a", by decide, .single (by decide)⟩
  · intro child hmem hchild
    obtain ⟨middle, hmiddle, hparent⟩ := List.mem_flatMap.mp hmem
    exact hparents _ child (.inner hmiddle (.inner hparent (.root _))) (by simp) hchild

end CallTrace.CallGraph
