import CallTrace.CallTree.Unfold
import CallTrace.Proofs.CallGraph.Reach
import CallTrace.Proofs.CallTree.Occurrence

/-!
The unfolding of a graph, node by node: a node stands below a list of signatures exactly when that
list, ended by its own signature, is a walk that repeats nothing before its end.
-/

namespace CallTrace.CallGraph

/-- What stands in a tree for a callee, below a path and with so many levels left. -/
def branch (g : CallGraph) (levels : Nat) (path : List Signature) (t : Signature) : CallTree :=
  if t ∈ path then .circularLeaf t (g.layerOf t) else g.unfold levels (t :: path) t

theorem unfold_succ (g : CallGraph) (levels : Nat) (path : List Signature) (s : Signature) :
    g.unfold (levels + 1) path s =
      { signature := s
        layer := g.layerOf s
        children := (g.successors s).map (g.branch levels path) } := rfl

@[simp] theorem unfold_signature (g : CallGraph) (levels : Nat) (path : List Signature)
    (s : Signature) : (g.unfold levels path s).signature = s := by
  cases levels <;> rfl

@[simp] theorem unfold_layer (g : CallGraph) (levels : Nat) (path : List Signature)
    (s : Signature) : (g.unfold levels path s).layer = g.layerOf s := by
  cases levels <;> rfl

@[simp] theorem unfold_circular (g : CallGraph) (levels : Nat) (path : List Signature)
    (s : Signature) : (g.unfold levels path s).circular = false := by
  cases levels <;> rfl

@[simp] theorem branch_signature (g : CallGraph) (levels : Nat) (path : List Signature)
    (t : Signature) : (g.branch levels path t).signature = t := by
  unfold branch
  split
  · rfl
  · exact unfold_signature g levels (t :: path) t

@[simp] theorem branch_layer (g : CallGraph) (levels : Nat) (path : List Signature)
    (t : Signature) : (g.branch levels path t).layer = g.layerOf t := by
  unfold branch
  split
  · rfl
  · exact unfold_layer g levels (t :: path) t

theorem branch_circular (g : CallGraph) (levels : Nat) (path : List Signature)
    (t : Signature) : (g.branch levels path t).circular = true ↔ t ∈ path := by
  unfold branch
  split
  · simp [CallTree.circularLeaf, *]
  · simp [*]

theorem branch_children_of_circular {g : CallGraph} {levels : Nat} {path : List Signature}
    {t : Signature} (h : (g.branch levels path t).circular = true) :
    (g.branch levels path t).children = [] := by
  rw [branch, if_pos ((branch_circular g levels path t).mp h)]
  rfl

/-- Off the path and above the last level all callees are shown, in order; else none is. -/
theorem branch_childSignatures (g : CallGraph) (levels : Nat) (path : List Signature)
    (t : Signature) :
    (g.branch levels path t).childSignatures =
      if t ∈ path ∨ levels = 0 then [] else g.successors t := by
  unfold branch
  by_cases hpath : t ∈ path
  · simp [hpath, CallTree.circularLeaf, CallTree.childSignatures]
  · cases levels with
    | zero => simp [hpath, unfold, CallTree.childSignatures]
    | succ levels =>
        simp [hpath, unfold_succ, CallTree.childSignatures, Function.comp_def]

theorem branch_zero_children (g : CallGraph) (path : List Signature) (t : Signature) :
    (g.branch 0 path t).children = [] := by
  have h := branch_childSignatures g 0 path t
  simpa [CallTree.childSignatures] using h

/-- The walks below a callee whose nodes its branch shows, with so many levels left: `down` leads
from the callee to the callers of `v`, and together with what is above it repeats nothing. -/
structure ShowsBelow (g : CallGraph) (levels : Nat) (above : List Signature) (t : Signature)
    (down : List Signature) (v : Signature) : Prop where
  walk : g.IsWalk (down ++ [v])
  head : (down ++ [v]).head? = some t
  length : down.length ≤ levels
  nodup : (above ++ down).Nodup

theorem showsBelow_nil {g : CallGraph} {levels : Nat} {above : List Signature}
    {t v : Signature} :
    g.ShowsBelow levels above t [] v ↔ v = t ∧ above.Nodup := by
  constructor
  · intro h
    obtain ⟨-, hhead, -, hnodup⟩ := h
    exact ⟨Option.some.inj hhead, by simpa using hnodup⟩
  · intro h
    obtain ⟨rfl, hnodup⟩ := h
    exact ⟨by simp [IsWalk], rfl, Nat.zero_le _, by simpa using hnodup⟩

theorem showsBelow_cons {g : CallGraph} {levels : Nat} {above down : List Signature}
    {s t v : Signature} :
    g.ShowsBelow (levels + 1) above t (s :: down) v ↔
      s = t ∧ ∃ next, g.hasEdge t next = true ∧ g.ShowsBelow levels (above ++ [t]) next down v := by
  constructor
  · intro h
    obtain ⟨hwalk, hhead, hlength, hnodup⟩ := h
    obtain rfl : s = t := Option.some.inj hhead
    rw [IsWalk, List.cons_append, List.isChain_cons] at hwalk
    obtain ⟨hedge, hrest⟩ := hwalk
    obtain ⟨next, hnext⟩ : ∃ next, (down ++ [v]).head? = some next := by
      cases down <;> exact ⟨_, rfl⟩
    exact ⟨rfl, next, hedge next hnext, hrest, hnext, by simpa using hlength,
      by simpa using hnodup⟩
  · intro h
    obtain ⟨rfl, next, hedge, hwalk, hhead, hlength, hnodup⟩ := h
    refine ⟨?_, rfl, by simpa using hlength, by simpa using hnodup⟩
    rw [IsWalk, List.cons_append, List.isChain_cons]
    refine ⟨?_, hwalk⟩
    intro next' hnext'
    rw [hhead] at hnext'
    cases hnext'
    exact hedge

theorem mem_occurrences_branch {g : CallGraph} {levels : Nat} {above : List Signature}
    (habove : above.Nodup) (t : Signature) {path : List Signature} {node : CallTree} :
    (path, node) ∈ (g.branch levels above.reverse t).occurrences above ↔
      ∃ down v, path = above ++ down ∧ g.ShowsBelow levels above t down v ∧
        node = g.branch (levels - down.length) path.reverse v := by
  induction levels generalizing above t with
  | zero =>
      rw [CallTree.mem_occurrences_iff, branch_zero_children]
      constructor
      · intro hcase
        rcases hcase with h | ⟨child, hchild, -⟩
        · cases h
          exact ⟨[], t, by simp, showsBelow_nil.mpr ⟨rfl, habove⟩, rfl⟩
        · simp at hchild
      · intro hcase
        obtain ⟨down, v, rfl, hshows, rfl⟩ := hcase
        obtain rfl : down = [] := List.eq_nil_of_length_eq_zero (Nat.le_zero.mp hshows.length)
        obtain ⟨rfl, -⟩ := showsBelow_nil.mp hshows
        exact .inl (by simp)
  | succ levels ih =>
      rw [CallTree.mem_occurrences_iff, branch_signature]
      constructor
      · intro hcase
        rcases hcase with h | ⟨child, hchild, hrow⟩
        · cases h
          exact ⟨[], t, by simp, showsBelow_nil.mpr ⟨rfl, habove⟩, rfl⟩
        · by_cases ht : t ∈ above
          · rw [branch, if_pos (by simpa using ht)] at hchild
            simp [CallTree.circularLeaf] at hchild
          · rw [branch, if_neg (by simpa using ht), unfold_succ] at hchild
            obtain ⟨next, hnext, rfl⟩ := List.mem_map.mp hchild
            have hextended : (above ++ [t]).Nodup := by simpa using List.Nodup.concat ht habove
            rw [show t :: above.reverse = (above ++ [t]).reverse by simp, ih hextended] at hrow
            obtain ⟨down, v, rfl, hshows, rfl⟩ := hrow
            refine ⟨t :: down, v, by simp, showsBelow_cons.mpr ⟨rfl, next, ?_, hshows⟩, by simp⟩
            exact mem_successors.mp hnext
      · intro hcase
        obtain ⟨down, v, rfl, hshows, rfl⟩ := hcase
        cases down with
        | nil =>
            obtain ⟨rfl, -⟩ := showsBelow_nil.mp hshows
            exact .inl (by simp)
        | cons s down =>
            obtain ⟨rfl, next, hedge, hnext⟩ := showsBelow_cons.mp hshows
            have hextended : (above ++ [s]).Nodup := hnext.nodup.of_append_left
            have hs : s ∉ above := fun hmem =>
              List.disjoint_of_nodup_append hextended hmem (List.mem_singleton_self s)
            refine .inr ⟨g.branch levels (above ++ [s]).reverse next, ?_, ?_⟩
            · rw [branch, if_neg (by simpa using hs), unfold_succ]
              exact List.mem_map.mpr ⟨next, mem_successors.mpr hedge, by simp⟩
            · rw [ih hextended]
              exact ⟨down, v, by simp, hnext, by simp⟩

theorem mem_occurrences_unfold {g : CallGraph} {depth : Nat} {root : Signature}
    {path : List Signature} {node : CallTree} :
    (path, node) ∈ (g.unfold depth [root] root).occurrences [] ↔
      ∃ v, g.ShowsBelow depth [] root path v ∧
        node = g.branch (depth - path.length) path.reverse v := by
  change (path, node) ∈ (g.branch depth ([] : List Signature).reverse root).occurrences [] ↔ _
  rw [mem_occurrences_branch List.nodup_nil]
  constructor
  · intro h
    obtain ⟨down, v, rfl, hshows, rfl⟩ := h
    exact ⟨v, hshows, rfl⟩
  · intro h
    obtain ⟨v, hshows, rfl⟩ := h
    exact ⟨path, v, rfl, hshows, rfl⟩

theorem hasNode_unfold {g : CallGraph} {depth : Nat} {root : Signature} {node : CallTree} :
    (g.unfold depth [root] root).HasNode node ↔
      ∃ path v, g.ShowsBelow depth [] root path v ∧
        node = g.branch (depth - path.length) path.reverse v := by
  rw [CallTree.hasNode_iff_occurrence []]
  simp only [mem_occurrences_unfold]

theorem ShowsBelow.reachesIn {g : CallGraph} {depth : Nat} {above path : List Signature}
    {root v : Signature} (hshows : g.ShowsBelow depth above root path v) :
    g.ReachesIn path.length root v :=
  hshows.walk.reachesIn hshows.head

theorem ReachesIn.exists_shows {g : CallGraph} {n depth : Nat} {root v : Signature}
    (hreach : g.ReachesIn n root v) (hn : n ≤ depth) :
    ∃ path, g.ShowsBelow depth [] root path v ∧ v ∉ path ∧ path.length ≤ n := by
  obtain ⟨path, hwalk, hhead, hnodup, hlength⟩ := hreach.exists_simple
  refine ⟨path, ⟨hwalk, hhead, by omega, by simpa using hnodup.of_append_left⟩, ?_, hlength⟩
  intro hmem
  exact List.disjoint_of_nodup_append hnodup hmem (List.mem_singleton_self v)

theorem mem_signatures_unfold {g : CallGraph} {depth : Nat} {root s : Signature} :
    s ∈ (g.unfold depth [root] root).signatures ↔ ∃ n, n ≤ depth ∧ g.ReachesIn n root s := by
  simp only [CallTree.mem_signatures, hasNode_unfold]
  constructor
  · intro h
    obtain ⟨node, ⟨path, v, hshows, rfl⟩, rfl⟩ := h
    rw [branch_signature]
    exact ⟨path.length, hshows.length, hshows.reachesIn⟩
  · intro h
    obtain ⟨n, hn, hreach⟩ := h
    obtain ⟨path, hshows, -, -⟩ := hreach.exists_shows hn
    exact ⟨_, ⟨path, s, hshows, rfl⟩, branch_signature ..⟩

/-- A tree shows exactly the calls of what is reached above its last level. -/
theorem links_unfold {g : CallGraph} {depth : Nat} {root u v : Signature} :
    (g.unfold depth [root] root).Links u v ↔
      g.hasEdge u v = true ∧ ∃ n, n < depth ∧ g.ReachesIn n root u := by
  simp only [CallTree.Links, hasNode_unfold]
  constructor
  · intro h
    obtain ⟨node, ⟨path, t, hshows, rfl⟩, hsignature, hchild⟩ := h
    rw [branch_signature] at hsignature
    subst hsignature
    rw [branch_childSignatures] at hchild
    split at hchild
    · simp at hchild
    · rename_i hshown
      have hlevel : path.length < depth := by
        have := hshows.length
        omega
      exact ⟨mem_successors.mp hchild, path.length, hlevel, hshows.reachesIn⟩
  · intro h
    obtain ⟨hedge, n, hn, hreach⟩ := h
    obtain ⟨path, hshows, hfresh, hlength⟩ := hreach.exists_shows (Nat.le_of_lt hn)
    refine ⟨_, ⟨path, u, hshows, rfl⟩, branch_signature .., ?_⟩
    have hshown : ¬(u ∈ path.reverse ∨ depth - path.length = 0) := by
      intro h
      rcases h with hmem | hlast
      · exact hfresh (List.mem_reverse.mp hmem)
      · omega
    rw [branch_childSignatures, if_neg hshown]
    exact mem_successors.mpr hedge

/-- The tree of a root depends only on the calls above its last level, and on the layers. -/
theorem unfold_congr {g h : CallGraph} {levels : Nat} {path : List Signature} {s : Signature}
    (hlayer : ∀ n t, n ≤ levels → g.ReachesIn n s t → h.layerOf t = g.layerOf t)
    (hcalls : ∀ n t, n < levels → g.ReachesIn n s t → h.successors t = g.successors t) :
    h.unfold levels path s = g.unfold levels path s := by
  induction levels generalizing path s with
  | zero => simp only [unfold, hlayer 0 s (Nat.le_refl 0) (.refl s)]
  | succ levels ih =>
      simp only [unfold_succ, hlayer 0 s (Nat.zero_le _) (.refl s),
        hcalls 0 s (Nat.succ_pos levels) (.refl s), CallTree.mk.injEq, true_and, and_true]
      apply List.map_congr_left
      intro t ht
      have hfirst := ReachesIn.single (mem_successors.mp ht)
      have hleaf := hlayer 1 t (by omega) hfirst
      have hbelow : h.unfold levels (t :: path) t = g.unfold levels (t :: path) t := by
        apply ih
        · intro n u hn hreach
          exact hlayer (1 + n) u (by omega) (hfirst.trans hreach)
        · intro n u hn hreach
          exact hcalls (1 + n) u (by omega) (hfirst.trans hreach)
      simp only [branch, hleaf, hbelow]

end CallTrace.CallGraph
