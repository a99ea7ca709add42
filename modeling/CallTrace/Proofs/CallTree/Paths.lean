import CallTrace.Proofs.CallTree.Walk

/-!
Call trees as sets of walks. The ways down a tree are the walks of the graph from its root that
are no longer than its depth and repeat nothing before their end, each of them once.
-/

namespace CallTrace.CallGraph

theorem mem_paths_unfold {g : CallGraph} {depth : Nat} {root : Signature}
    {path : List Signature} :
    path ∈ (g.unfold depth [root] root).paths ↔
      g.IsWalk path ∧ path.head? = some root ∧ path.length ≤ depth + 1 ∧ path.dropLast.Nodup := by
  simp only [CallTree.paths, List.mem_map, Prod.exists, mem_occurrences_unfold]
  constructor
  · intro h
    obtain ⟨above, node, ⟨v, hshows, rfl⟩, rfl⟩ := h
    rw [branch_signature]
    refine ⟨hshows.walk, hshows.head, ?_, ?_⟩
    · simpa using hshows.length
    · simpa using hshows.nodup
  · intro h
    obtain ⟨hwalk, hhead, hlength, hnodup⟩ := h
    have hne : path ≠ [] := by
      rintro rfl
      contradiction
    obtain ⟨above, v, rfl⟩ : ∃ above v, path = above ++ [v] :=
      ⟨path.dropLast, path.getLast hne, (List.dropLast_append_getLast hne).symm⟩
    refine ⟨above, _, ⟨v, ⟨hwalk, hhead, ?_, ?_⟩, rfl⟩, by rw [branch_signature]⟩
    · simpa using hlength
    · simpa using hnodup

theorem disjoint_paths_branch {g : CallGraph} {levels : Nat} {above : List Signature}
    (habove : above.Nodup) {s t : Signature} (hne : s ≠ t) :
    List.Disjoint
      (((g.branch levels above.reverse s).occurrences above).map
        fun row => row.1 ++ [row.2.signature])
      (((g.branch levels above.reverse t).occurrences above).map
        fun row => row.1 ++ [row.2.signature]) := by
  intro path hs ht
  simp only [List.mem_map, Prod.exists, mem_occurrences_branch habove] at hs ht
  obtain ⟨_, _, ⟨down, v, rfl, hdown, rfl⟩, rfl⟩ := hs
  obtain ⟨_, _, ⟨down', v', rfl, hdown', rfl⟩, heq⟩ := ht
  simp only [branch_signature, List.append_assoc, List.append_cancel_left_eq] at heq
  have hhead := hdown.head
  rw [← heq, hdown'.head] at hhead
  exact hne (Option.some.inj hhead).symm

theorem nodup_paths_branch {g : CallGraph} (hg : g.WellFormed) {levels : Nat}
    {above : List Signature} (habove : above.Nodup) (t : Signature) :
    (((g.branch levels above.reverse t).occurrences above).map
      fun row => row.1 ++ [row.2.signature]).Nodup := by
  induction levels generalizing above t with
  | zero =>
      rw [CallTree.occurrences_eq, branch_zero_children]
      simp
  | succ levels ih =>
      rw [CallTree.occurrences_eq, branch_signature]
      by_cases ht : t ∈ above
      · rw [branch, if_pos (by simpa using ht)]
        simp [CallTree.circularLeaf]
      · have hextended : (above ++ [t]).Nodup := by simpa using List.Nodup.concat ht habove
        have hpath : t :: above.reverse = (above ++ [t]).reverse := by simp
        rw [branch, if_neg (by simpa using ht), unfold_succ, hpath]
        simp only [List.map_cons, List.flatMap_map, List.map_flatMap]
        refine List.nodup_cons.mpr ⟨?_, List.nodup_flatMap.mpr ⟨?_, ?_⟩⟩
        · intro hmem
          simp only [List.mem_flatMap, List.mem_map, Prod.exists,
            mem_occurrences_branch hextended] at hmem
          obtain ⟨_, _, _, _, ⟨down, v, rfl, -, rfl⟩, heq⟩ := hmem
          simpa using congrArg List.length heq
        · intro s _
          exact ih hextended s
        · refine (hg.successors_strict t).imp ?_
          intro s s' hlt
          exact disjoint_paths_branch hextended (ne_of_lt hlt)

theorem nodup_paths_unfold {g : CallGraph} (hg : g.WellFormed) (depth : Nat)
    (root : Signature) : (g.unfold depth [root] root).paths.Nodup :=
  nodup_paths_branch hg List.nodup_nil root

theorem occurrence_unfold {g : CallGraph} (hg : g.WellFormed) {depth : Nat}
    {root : Signature} {above : List Signature} {node : CallTree}
    (h : (above, node) ∈ (g.unfold depth [root] root).occurrences []) :
    (node.circular = true ↔ node.signature ∈ above) ∧
      (node.circular = true → node.children = []) ∧
      node.childSignatures.Pairwise (· < ·) := by
  obtain ⟨v, -, rfl⟩ := mem_occurrences_unfold.mp h
  refine ⟨?_, branch_children_of_circular, ?_⟩
  · rw [branch_circular, branch_signature, List.mem_reverse]
  · rw [branch_childSignatures]
    split
    · exact List.Pairwise.nil
    · exact hg.successors_strict v

/-- Ways down a tree are walks. In a graph that any run of operations has made, the signatures from
a root down to the nodes of its tree are the walks from the root with at most as many calls as the
tree is deep that are pairwise distinct up to their last; each is there once. A node is circular
when it stands below its own signature, and then has no children; children rise by signature. So
the tree shows what the root reaches within its depth. -/
theorem tree_paths_are_walks (changes : List Change) (root : Signature) (maxDepth : UInt64)
    (hroot : (ofChanges changes).hasNode root = true) :
    ∃ tree, (ofChanges changes).tree? root maxDepth.toNat = some tree ∧
      tree.paths.Nodup ∧
      (∀ path, path ∈ tree.paths ↔
        (ofChanges changes).IsWalk path ∧ path.head? = some root ∧
          path.length ≤ maxDepth.toNat + 1 ∧ path.dropLast.Nodup) ∧
      (∀ above node, (above, node) ∈ tree.occurrences [] →
        (node.circular = true ↔ node.signature ∈ above) ∧
          (node.circular = true → node.children = []) ∧
          node.childSignatures.Pairwise (· < ·)) ∧
      ∀ s, s ∈ tree.signatures ↔
        ∃ n, n ≤ maxDepth.toNat ∧ (ofChanges changes).ReachesIn n root s := by
  have hg := wellFormed_ofChanges changes
  refine ⟨_, tree?_eq_some maxDepth.toNat_lt hroot, nodup_paths_unfold hg _ root, ?_, ?_, ?_⟩
  · intro path
    exact mem_paths_unfold
  · intro above node h
    exact occurrence_unfold hg h
  · intro s
    exact mem_signatures_unfold

def sharedCallee : List Change :=
  [.addEdge "A.a" "B.b", .addEdge "B.b" "A.a", .addEdge "A.a" "C.c", .addEdge "B.b" "C.c"]

theorem tree_paths_are_walks_shared :
    ∃ tree, (ofChanges sharedCallee).tree? "A.a" 2 = some tree ∧
      tree.paths.Nodup ∧
      ["A.a", "B.b", "A.a"] ∈ tree.paths ∧
      ["A.a", "B.b", "C.c"] ∈ tree.paths ∧
      ["A.a", "C.c"] ∈ tree.paths := by
  obtain ⟨tree, htree, hnodup, hpaths, -, -⟩ :=
    tree_paths_are_walks sharedCallee "A.a" 2 (by decide)
  refine ⟨tree, htree, hnodup, ?_, ?_, ?_⟩
  · exact (hpaths _).mpr ⟨by decide, rfl, by decide, by decide⟩
  · exact (hpaths _).mpr ⟨by decide, rfl, by decide, by decide⟩
  · exact (hpaths _).mpr ⟨by decide, rfl, by decide, by decide⟩

end CallTrace.CallGraph
