import CallTrace.Proofs.CallTree.Walk
import CallTrace.Proofs.Cycle.Closure

/-!
The depth of call trees. A tree that is asked for with fewer levels is the deeper one cut off below
the last of them, and no tree is deeper than the graph has nodes: a way down repeats nothing before
its end.
-/

namespace CallTrace

namespace CallTree

/-- The tree without all that is more than so many levels below its root. -/
def truncate : (levels : Nat) → CallTree → CallTree
  | 0, tree => { tree with children := [] }
  | levels + 1, tree => { tree with children := tree.children.map (truncate levels) }

/-- The nodes with their levels, parents before children; this is all that a tree tells of them. -/
def outline (level : Nat) (tree : CallTree) : List (Nat × Signature × Layer × Bool) :=
  (tree.preorder level).map fun row => (row.1, row.2.signature, row.2.layer, row.2.circular)

theorem preorderList_eq_flatMap (level : Nat) (trees : List CallTree) :
    preorderList level trees = trees.flatMap (preorder level) := by
  induction trees with
  | nil => rfl
  | cons child rest ih => rw [preorderList, ih, List.flatMap_cons]

theorem outline_eq (level : Nat) (tree : CallTree) :
    tree.outline level =
      (level, tree.signature, tree.layer, tree.circular) ::
        tree.children.flatMap (outline (level + 1)) := by
  cases tree
  rw [outline, preorder, preorderList_eq_flatMap, List.map_cons, List.map_flatMap]
  rfl

mutual

theorem le_of_mem_preorder {level : Nat} (tree : CallTree) {row : Nat × CallTree}
    (h : row ∈ tree.preorder level) : level ≤ row.1 := by
  cases tree with
  | mk s l c children e =>
      rcases List.mem_cons.mp h with rfl | h
      · exact Nat.le_refl level
      · exact Nat.le_of_succ_le (le_of_mem_preorderList children h)

theorem le_of_mem_preorderList {level : Nat} (trees : List CallTree) {row : Nat × CallTree}
    (h : row ∈ preorderList level trees) : level ≤ row.1 := by
  cases trees with
  | nil => exact absurd h List.not_mem_nil
  | cons child rest =>
      rcases List.mem_append.mp h with h | h
      · exact le_of_mem_preorder child h
      · exact le_of_mem_preorderList rest h

end

theorem le_of_mem_outline {level : Nat} {tree : CallTree} {row : Nat × Signature × Layer × Bool}
    (h : row ∈ tree.outline level) : level ≤ row.1 := by
  obtain ⟨node, hnode, rfl⟩ := List.mem_map.mp h
  exact le_of_mem_preorder tree hnode

/-- Cutting off leaves the nodes of the upper levels as they are, and no others. -/
theorem outline_truncate (levels level : Nat) (tree : CallTree) :
    (tree.truncate levels).outline level =
      (tree.outline level).filter fun row => row.1 ≤ level + levels := by
  induction levels generalizing level tree with
  | zero =>
      have hbelow : (tree.children.flatMap (outline (level + 1))).filter
          (fun row => row.1 ≤ level + 0) = [] := by
        rw [List.filter_eq_nil_iff]
        intro row hrow
        obtain ⟨child, -, hrow⟩ := List.mem_flatMap.mp hrow
        have := le_of_mem_outline hrow
        simp only [decide_eq_true_eq]
        omega
      rw [outline_eq, outline_eq level tree, List.filter_cons_of_pos (by simp), hbelow]
      rfl
  | succ levels ih =>
      rw [outline_eq, outline_eq level tree, List.filter_cons_of_pos (by simp), List.filter_flatMap]
      simp only [truncate, List.flatMap_map, ih]
      rw [Nat.add_right_comm, Nat.add_assoc]

theorem depthList_le_iff {trees : List CallTree} {n : Nat} :
    depthList trees ≤ n ↔ ∀ tree ∈ trees, tree.depth + 1 ≤ n := by
  induction trees with
  | nil => simp [depthList]
  | cons tree rest ih => simp [depthList, ih]

theorem truncate_eq_self {levels : Nat} {tree : CallTree} (h : tree.depth ≤ levels) :
    tree.truncate levels = tree := by
  induction levels generalizing tree with
  | zero =>
      cases tree with
      | mk s l c children e =>
          rw [depth, depthList_le_iff] at h
          obtain rfl : children = [] := by
            rw [List.eq_nil_iff_forall_not_mem]
            intro child hchild
            exact absurd (h child hchild) (Nat.not_succ_le_zero _)
          rfl
  | succ levels ih =>
      cases tree with
      | mk s l c children e =>
          rw [depth, depthList_le_iff] at h
          have hchildren : children.map (truncate levels) = children :=
            calc children.map (truncate levels)
              _ = children.map id := List.map_congr_left fun child hchild =>
                ih (Nat.le_of_succ_le_succ (h child hchild))
              _ = children := List.map_id children
          rw [truncate, hchildren]

end CallTree

namespace CallGraph

variable {g : CallGraph}

theorem truncate_branch {levels deeper : Nat} {path : List Signature} {t : Signature}
    (hunfold : (g.unfold deeper (t :: path) t).truncate levels = g.unfold levels (t :: path) t) :
    (g.branch deeper path t).truncate levels = g.branch levels path t := by
  unfold branch
  split
  · cases levels <;> rfl
  · exact hunfold

theorem truncate_unfold {levels deeper : Nat} (h : levels ≤ deeper) (path : List Signature)
    (s : Signature) : (g.unfold deeper path s).truncate levels = g.unfold levels path s := by
  induction levels generalizing deeper path s with
  | zero => cases deeper <;> rfl
  | succ levels ih =>
      obtain ⟨deeper, rfl⟩ : ∃ n, deeper = n + 1 := ⟨deeper - 1, by omega⟩
      rw [unfold_succ, unfold_succ, CallTree.truncate]
      simp only [List.map_map, CallTree.mk.injEq, true_and, and_true]
      apply List.map_congr_left
      intro t _
      exact truncate_branch (ih (Nat.le_of_succ_le_succ h) (t :: path) t)

theorem depth_unfold_le (g : CallGraph) (levels : Nat) (path : List Signature) (s : Signature) :
    (g.unfold levels path s).depth ≤ levels := by
  induction levels generalizing path s with
  | zero => exact Nat.le_refl 0
  | succ levels ih =>
      rw [unfold_succ, CallTree.depth, CallTree.depthList_le_iff, List.forall_mem_map]
      intro t _
      unfold branch
      split
      · exact Nat.succ_le_succ (Nat.zero_le levels)
      · exact Nat.succ_le_succ (ih (t :: path) t)

/-- The path and what is below it have no more signatures than there are nodes, but for one that
closes a cycle. -/
theorem WellFormed.depth_unfold_add_le (hg : g.WellFormed) (levels : Nat) {path : List Signature}
    (hnodup : path.Nodup) (hknown : ∀ s ∈ path, g.hasNode s = true) (s : Signature) :
    (g.unfold levels path s).depth + path.length ≤ g.nodes.length + 1 := by
  have hlength := length_le_of_known hnodup hknown
  induction levels generalizing path s with
  | zero =>
      rw [unfold, CallTree.depth, CallTree.depthList]
      omega
  | succ levels ih =>
      have hbelow : (g.unfold (levels + 1) path s).depth ≤ g.nodes.length + 1 - path.length := by
        rw [unfold_succ, CallTree.depth, CallTree.depthList_le_iff, List.forall_mem_map]
        intro t ht
        unfold branch
        split
        · rw [CallTree.circularLeaf, CallTree.depth, CallTree.depthList]
          omega
        · rename_i hfresh
          have hnext : (t :: path).Nodup := List.nodup_cons.mpr ⟨hfresh, hnodup⟩
          have hnodes : ∀ u ∈ t :: path, g.hasNode u = true :=
            List.forall_mem_cons.mpr ⟨hg.hasCallee (mem_successors.mp ht), hknown⟩
          have hdepth := ih hnext hnodes t (length_le_of_known hnext hnodes)
          rw [List.length_cons] at hdepth
          omega
      omega

theorem WellFormed.depth_unfold_le_nodes (hg : g.WellFormed) (levels : Nat) {root : Signature}
    (hroot : g.hasNode root = true) :
    (g.unfold levels [root] root).depth ≤ g.nodes.length := by
  have h := hg.depth_unfold_add_le levels (List.nodup_singleton root)
    (List.forall_mem_singleton.mpr hroot) root
  simpa using h

/-- Depth only cuts off. In a graph that any run of operations has made, the trees of a root that
are asked for with fewer levels are the deeper tree without all that is below these levels, each
other node as it was and in its place. No tree is deeper than it was asked for, or than there are
nodes; so with as many levels as there are nodes it is complete. -/
theorem depth_only_truncates (changes : List Change) (root : Signature) (maxDepth : UInt64)
    (hroot : (ofChanges changes).hasNode root = true) :
    ∃ tree, (ofChanges changes).tree? root maxDepth.toNat = some tree ∧
      (∀ levels ≤ maxDepth.toNat, ∃ upper,
        (ofChanges changes).tree? root levels = some upper ∧
        upper = tree.truncate levels ∧
        upper.outline 0 = (tree.outline 0).filter fun row => row.1 ≤ levels) ∧
      tree.depth ≤ min maxDepth.toNat (ofChanges changes).nodes.length ∧
      ((ofChanges changes).nodes.length ≤ maxDepth.toNat →
        (ofChanges changes).tree? root (ofChanges changes).nodes.length = some tree) := by
  have hg := wellFormed_ofChanges changes
  have hbound : maxDepth.toNat < depthBound := maxDepth.toNat_lt
  have hupper : ∀ levels ≤ maxDepth.toNat, (ofChanges changes).tree? root levels =
      some (((ofChanges changes).unfold maxDepth.toNat [root] root).truncate levels) := by
    intro levels hlevels
    rw [tree?_eq_some (Nat.lt_of_le_of_lt hlevels hbound) hroot, truncate_unfold hlevels]
  have hdepth := hg.depth_unfold_le_nodes maxDepth.toNat hroot
  refine ⟨_, tree?_eq_some hbound hroot, ?_, ?_, ?_⟩
  · intro levels hlevels
    refine ⟨_, hupper levels hlevels, rfl, ?_⟩
    rw [CallTree.outline_truncate, Nat.zero_add]
  · exact le_min (depth_unfold_le ..) hdepth
  · intro hnodes
    rw [hupper _ hnodes, CallTree.truncate_eq_self hdepth]

def callsAround : List Change :=
  [.addEdge "A.a" "B.b", .addEdge "B.b" "A.a", .addEdge "A.a" "C.c", .addEdge "B.b" "C.c"]

theorem depth_only_truncates_around :
    ∃ tree, (ofChanges callsAround).tree? "A.a" 200 = some tree ∧
      (ofChanges callsAround).tree? "A.a" 3 = some tree ∧ tree.depth ≤ 3 ∧
      ∃ upper, (ofChanges callsAround).tree? "A.a" 1 = some upper ∧
        upper.outline 0 = (tree.outline 0).filter fun row => row.1 ≤ 1 := by
  obtain ⟨tree, htree, hupper, hdepth, hwhole⟩ :=
    depth_only_truncates callsAround "A.a" 200 (by decide)
  obtain ⟨upper, hone, -, houtline⟩ := hupper 1 (by decide)
  exact ⟨tree, htree, hwhole (by decide), hdepth.trans (by decide), upper, hone, houtline⟩

end CallGraph

end CallTrace
