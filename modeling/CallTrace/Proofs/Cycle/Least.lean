import CallTrace.Proofs.Cycle.Search
import Mathlib.Data.List.Lex
import Mathlib.Data.Prod.Lex

/-!
The cycle that stands for a component is the least one. The search takes up paths in the order of
their length, and paths of one length in the order of their signatures; a signature is queued under
the first path that comes to it, and no walk to it comes before that path. So the path that closes
first comes before all walks that close.
-/

namespace CallTrace.CallGraph

def IsClosedWalk (g : CallGraph) (start : Signature) (walk : List Signature) : Prop :=
  g.IsWalk walk ∧ ∃ inner, walk = start :: (inner ++ [start])

/-- A closed walk with as few calls as any from its start; among those with as few, the first in
the order of signatures. -/
structure IsLeastCycle (g : CallGraph) (start : Signature) (cycle : Cycle) : Prop where
  closed : g.IsClosedWalk start cycle
  shortest : ∀ walk, g.IsClosedWalk start walk → cycle.length ≤ walk.length
  first : ∀ walk, g.IsClosedWalk start walk → walk.length = cycle.length → cycle ≤ walk

def pathRank (path : List Signature) : ℕ ×ₗ List Signature :=
  toLex (path.length, path)

theorem pathRank_le_iff {p q : List Signature} :
    pathRank p ≤ pathRank q ↔ p.length < q.length ∨ p.length = q.length ∧ p ≤ q :=
  Prod.Lex.toLex_le_toLex

theorem pathRank_lt_iff {p q : List Signature} :
    pathRank p < pathRank q ↔ p.length < q.length ∨ p.length = q.length ∧ p < q :=
  Prod.Lex.toLex_lt_toLex

theorem pathRank_lt_concat (p : List Signature) (s : Signature) :
    pathRank p < pathRank (p ++ [s]) :=
  pathRank_lt_iff.mpr (.inl (by simp))

theorem append_lt_append {p q : List Signature} (hlength : p.length = q.length) (h : p < q)
    (r r' : List Signature) : p ++ r < q ++ r' := by
  induction p generalizing q with
  | nil =>
      obtain rfl := List.eq_nil_of_length_eq_zero hlength.symm
      exact absurd h (lt_irrefl _)
  | cons s p ih =>
      cases q with
      | nil => simp at hlength
      | cons t q =>
          rcases List.cons_lt_cons_iff.mp h with hlt | ⟨rfl, hrest⟩
          · exact List.cons_lt_cons_iff.mpr (.inl hlt)
          · exact List.cons_lt_cons_iff.mpr (.inr ⟨rfl, ih (by simpa using hlength) hrest⟩)

theorem pathRank_concat_lt {p q : List Signature} (h : pathRank p < pathRank q)
    (s t : Signature) : pathRank (p ++ [s]) < pathRank (q ++ [t]) := by
  rw [pathRank_lt_iff, List.length_append, List.length_append] at *
  rcases h with hshort | ⟨hlength, hlt⟩
  · exact .inl (by simpa using hshort)
  · exact .inr ⟨by rw [hlength]; rfl, append_lt_append hlength hlt [s] [t]⟩

theorem pathRank_concat_le {p q : List Signature} (h : pathRank p ≤ pathRank q)
    (s : Signature) : pathRank (p ++ [s]) ≤ pathRank (q ++ [s]) := by
  rcases lt_or_eq_of_le h with hlt | heq
  · exact le_of_lt (pathRank_concat_lt hlt s s)
  · have hpath : p = q := congrArg (fun rank => (ofLex rank).2) heq
    rw [hpath]

theorem pathRank_concat_concat (p : List Signature) {s t : Signature} (h : s < t) :
    pathRank (p ++ [s]) < pathRank (p ++ [t]) := by
  refine pathRank_lt_iff.mpr (.inr ⟨by simp, ?_⟩)
  exact List.append_left_lt (List.cons_lt_cons_iff.mpr (.inl h))

def entryPath (entry : Signature × List Signature) : List Signature :=
  (entry.1 :: entry.2).reverse

theorem entryPath_extend (entry : Signature × List Signature) (s : Signature) :
    entryPath (s, entry.1 :: entry.2) = entryPath entry ++ [s] :=
  List.reverse_cons

/-- A search under way, with the entries it has taken up. All entries stand in the order of their
paths, each goes on from one that was taken up, and what an entry that was taken up calls is listed
no later than by going on from it. -/
structure InOrder (g : CallGraph) (members : List Signature) (start : Signature)
    (seen : List Signature) (taken queue : List (Signature × List Signature)) : Prop where
  seen_eq : seen = (taken ++ queue).map Prod.fst
  rising : (taken ++ queue).Pairwise fun e f => pathRank (entryPath e) < pathRank (entryPath f)
  start_mem : (start, []) ∈ taken ++ queue
  parents : ∀ e ∈ taken ++ queue, e.2 = [] ∨ ∃ parent ∈ taken, e.2 = parent.1 :: parent.2
  covers : ∀ caller ∈ taken, ∀ s ∈ members, g.hasEdge caller.1 s = true →
    ∃ e ∈ taken ++ queue, e.1 = s ∧ pathRank (entryPath e) ≤ pathRank (entryPath caller ++ [s])
  unclosed : ∀ e ∈ taken, g.hasEdge e.1 start = false

namespace InOrder

variable {g : CallGraph} {members : List Signature} {start : Signature}
  {seen : List Signature} {taken queue : List (Signature × List Signature)}
  {current : Signature × List Signature}

theorem start_single (g : CallGraph) (members : List Signature) (start : Signature) :
    g.InOrder members start [start] [] [(start, [])] where
  seen_eq := rfl
  rising := List.pairwise_singleton _ _
  start_mem := List.mem_singleton_self _
  parents e he := .inl (by rw [List.mem_singleton.mp he])
  covers caller hcaller := absurd hcaller List.not_mem_nil
  unclosed e he := absurd he List.not_mem_nil

theorem taken_lt (h : g.InOrder members start seen taken (current :: queue))
    {e : Signature × List Signature} (he : e ∈ taken) :
    pathRank (entryPath e) < pathRank (entryPath current) :=
  (List.pairwise_append.mp h.rising).2.2 e he current List.mem_cons_self

theorem current_le (h : g.InOrder members start seen taken (current :: queue))
    {e : Signature × List Signature} (he : e ∈ current :: queue) :
    pathRank (entryPath current) ≤ pathRank (entryPath e) := by
  rcases List.mem_cons.mp he with rfl | he
  · exact le_refl _
  · exact le_of_lt ((List.pairwise_cons.mp (List.pairwise_append.mp h.rising).2.1).1 e he)

/-- All entries come before those that go on from the current one. -/
theorem lt_extend (h : g.InOrder members start seen taken (current :: queue))
    {e : Signature × List Signature} (he : e ∈ taken ++ current :: queue) (s : Signature) :
    pathRank (entryPath e) < pathRank (entryPath current ++ [s]) := by
  rcases h.parents e he with hroot | ⟨parent, hparent, htrail⟩
  · refine pathRank_lt_iff.mpr (.inl ?_)
    simp [entryPath, hroot]
  · have hpath : entryPath e = entryPath parent ++ [e.1] := by
      rw [← entryPath_extend, ← htrail]
    rw [hpath]
    exact pathRank_concat_lt (h.taken_lt hparent) e.1 s

/-- Taking up the current entry keeps all places; what goes on from it comes behind them. -/
theorem entries_step (taken queue more : List (Signature × List Signature))
    (current : Signature × List Signature) :
    taken ++ [current] ++ (queue ++ more) = (taken ++ current :: queue) ++ more := by
  simp

theorem step (h : g.InOrder members start seen taken (current :: queue)) (hg : g.WellFormed)
    (hopen : g.hasEdge current.1 start = false) :
    g.InOrder members start (seen ++ g.unseenCallees members seen current.1) (taken ++ [current])
      (queue ++ (g.unseenCallees members seen current.1).map
        fun s => (s, current.1 :: current.2)) where
  seen_eq := by
    rw [entries_step, h.seen_eq]
    simp [Function.comp_def]
  rising := by
    rw [entries_step, List.pairwise_append, List.pairwise_map]
    refine ⟨h.rising, ?_, ?_⟩
    · refine (((hg.successors_strict current.1).filter _).filter _).imp ?_
      intro s t hlt
      rw [entryPath_extend, entryPath_extend]
      exact pathRank_concat_concat _ hlt
    · intro e he f hf
      obtain ⟨s, -, rfl⟩ := List.mem_map.mp hf
      rw [entryPath_extend]
      exact h.lt_extend he s
  start_mem := by
    rw [entries_step]
    exact List.mem_append_left _ h.start_mem
  parents e he := by
    rw [entries_step] at he
    rcases List.mem_append.mp he with he | he
    · refine (h.parents e he).imp_right ?_
      rintro ⟨parent, hparent, htrail⟩
      exact ⟨parent, List.mem_append_left _ hparent, htrail⟩
    · obtain ⟨s, -, rfl⟩ := List.mem_map.mp he
      exact .inr ⟨current, List.mem_append_right _ (List.mem_singleton_self current), rfl⟩
  covers caller hcaller s hs hedge := by
    rw [entries_step]
    rcases List.mem_append.mp hcaller with hcaller | hcaller
    · obtain ⟨e, he, hrank⟩ := h.covers caller hcaller s hs hedge
      exact ⟨e, List.mem_append_left _ he, hrank⟩
    · obtain rfl := List.mem_singleton.mp hcaller
      -- a callee that was seen has an entry already; any other gets one from here
      by_cases hseen : s ∈ seen
      · obtain ⟨e, he, rfl⟩ := List.mem_map.mp (h.seen_eq ▸ hseen)
        exact ⟨e, List.mem_append_left _ he, rfl, le_of_lt (h.lt_extend he e.1)⟩
      · have hnew := mem_unseenCallees.mpr ⟨hedge, hs, hseen⟩
        refine ⟨(s, caller.1 :: caller.2), ?_, rfl, le_of_eq (by rw [entryPath_extend])⟩
        exact List.mem_append_right _ (List.mem_map.mpr ⟨s, hnew, rfl⟩)
  unclosed e he := by
    rcases List.mem_append.mp he with he | he
    · exact h.unclosed e he
    · rw [List.mem_singleton.mp he]
      exact hopen

/-- A walk comes behind the current entry, unless its end was taken up under a path before it. -/
theorem le_walk (h : g.InOrder members start seen taken (current :: queue))
    {above : List Signature} {v : Signature} (hwalk : g.IsWalk (above ++ [v]))
    (hhead : (above ++ [v]).head? = some start) (hwithin : above ++ [v] ⊆ members) :
    (∃ e ∈ taken, e.1 = v ∧ pathRank (entryPath e) ≤ pathRank (above ++ [v])) ∨
      pathRank (entryPath current) ≤ pathRank (above ++ [v]) := by
  have hlisted : ∀ e ∈ taken ++ current :: queue, ∀ path,
      pathRank (entryPath e) ≤ pathRank path →
        (∃ f ∈ taken, f.1 = e.1 ∧ pathRank (entryPath f) ≤ pathRank path) ∨
          pathRank (entryPath current) ≤ pathRank path := by
    intro e he path hrank
    rcases List.mem_append.mp he with he | he
    · exact .inl ⟨e, he, rfl, hrank⟩
    · exact .inr (le_trans (h.current_le he) hrank)
  induction above using List.reverseRecOn generalizing v with
  | nil =>
      obtain rfl : v = start := Option.some.inj hhead
      exact hlisted _ h.start_mem _ (le_refl _)
  | append_singleton above u ih =>
      obtain ⟨hinit, hedge⟩ := isWalk_concat_concat.mp hwalk
      obtain ⟨hbefore, hv⟩ := List.append_subset.mp hwithin
      rcases ih hinit (by simpa using hhead) hbefore with ⟨caller, hcaller, rfl, hrank⟩ | hrank
      · obtain ⟨e, he, rfl, hfound⟩ :=
          h.covers caller hcaller v (hv (List.mem_singleton_self v)) hedge
        exact hlisted e he _ (le_trans hfound (pathRank_concat_le hrank e.1))
      · exact .inr (le_trans hrank (le_of_lt (pathRank_lt_concat _ v)))

theorem le_closed (h : g.InOrder members start seen taken (current :: queue))
    (hmembers : ∀ walk, g.IsClosedWalk start walk → walk ⊆ members) {walk : List Signature}
    (hclosed : g.IsClosedWalk start walk) :
    pathRank (entryPath current ++ [start]) ≤ pathRank walk := by
  obtain ⟨hwalk, inner, rfl⟩ := hclosed
  have hwithin := hmembers _ ⟨hwalk, inner, rfl⟩
  obtain ⟨above, v, hsplit⟩ : ∃ above v, start :: inner = above ++ [v] :=
    ⟨_, _, (List.dropLast_append_getLast (List.cons_ne_nil start inner)).symm⟩
  have hpath : start :: (inner ++ [start]) = above ++ [v] ++ [start] := by
    rw [← hsplit, List.cons_append]
  rw [hpath] at hwalk hwithin ⊢
  obtain ⟨hinit, hedge⟩ := isWalk_concat_concat.mp hwalk
  rcases h.le_walk hinit (by rw [← hsplit]; rfl) (List.append_subset.mp hwithin).1 with
    ⟨e, he, rfl, -⟩ | hrank
  · rw [h.unclosed e he] at hedge
    contradiction
  · exact pathRank_concat_le hrank start

/-- What a search finds comes before all closed walks. -/
theorem le_found (h : g.InOrder members start seen taken queue) (hg : g.WellFormed)
    (hstart : start ∈ members) (hmembers : ∀ walk, g.IsClosedWalk start walk → walk ⊆ members)
    {steps : Nat} {cycle : Cycle}
    (hfound : g.cycleSearch members start steps seen queue = some cycle) {walk : List Signature}
    (hclosed : g.IsClosedWalk start walk) : pathRank cycle ≤ pathRank walk := by
  induction steps generalizing seen taken queue with
  | zero => simp [cycleSearch] at hfound
  | succ steps ih =>
      cases queue with
      | nil => simp [cycleSearch] at hfound
      | cons entry queue =>
          obtain ⟨current, trail⟩ := entry
          rw [cycleSearch_succ hstart] at hfound
          cases hedge : g.hasEdge current start with
          | true =>
              rw [hedge, if_pos rfl, Option.some.injEq, List.reverse_cons] at hfound
              rw [← hfound]
              exact h.le_closed hmembers hclosed
          | false =>
              rw [hedge, if_neg Bool.false_ne_true] at hfound
              exact ih (h.step hg hedge) hfound

end InOrder

section Components

variable {g : CallGraph}

theorem IsClosedWalk.mutual {start t : Signature} {walk : List Signature}
    (h : g.IsClosedWalk start walk) (ht : t ∈ walk) : g.Mutual start t := by
  obtain ⟨hwalk, inner, rfl⟩ := h
  rw [← List.cons_append] at hwalk ht
  exact ⟨hwalk.reaches_first rfl ht, hwalk.reaches_last ht⟩

theorem isLeastCycle_of_pathRank_le {start : Signature} {cycle : Cycle}
    (hclosed : g.IsClosedWalk start cycle)
    (hle : ∀ walk, g.IsClosedWalk start walk → pathRank cycle ≤ pathRank walk) :
    g.IsLeastCycle start cycle where
  closed := hclosed
  shortest walk hwalk := by
    rcases pathRank_le_iff.mp (hle walk hwalk) with hshort | ⟨hlength, -⟩
    · exact Nat.le_of_lt hshort
    · exact Nat.le_of_eq hlength
  first walk hwalk hlength := by
    rcases pathRank_le_iff.mp (hle walk hwalk) with hshort | ⟨-, hfirst⟩
    · omega
    · exact hfirst

theorem IsComponent.exists_least (hg : g.WellFormed) {members : List Signature}
    (h : g.IsComponent members) :
    ∃ cycle, g.cycleWithin? members = some cycle ∧
      ∃ start ∈ members, (∀ t ∈ members, start ≤ t) ∧ g.IsLeastCycle start cycle := by
  obtain ⟨cycle, hfound, hcycle⟩ := h.exists_cycle hg
  obtain ⟨start, inner, hclosed, hhead, -⟩ := hcycle.closed
  obtain ⟨others, rfl⟩ : ∃ others, members = start :: others := by
    obtain ⟨others, hothers⟩ := List.head?_eq_some_iff.mp hhead
    exact ⟨others, hothers⟩
  have hmembers : ∀ walk, g.IsClosedWalk start walk → walk ⊆ start :: others := by
    intro walk hwalk t ht
    exact (h.mem_iff_mutual List.mem_cons_self t).mpr (hwalk.mutual ht)
  refine ⟨cycle, hfound, start, List.mem_cons_self, ?_, ?_⟩
  · intro t ht
    rcases List.mem_cons.mp ht with rfl | ht
    · exact le_refl t
    · exact le_of_lt ((List.pairwise_cons.mp h.strict).1 t ht)
  · refine isLeastCycle_of_pathRank_le ⟨hcycle.walk, inner, hclosed⟩ ?_
    intro walk hwalk
    exact (InOrder.start_single g _ start).le_found hg List.mem_cons_self hmembers hfound hwalk

end Components

theorem forall₂_filterMap {found : α → Option β} {R : α → β → Prop} {items : List α}
    (h : ∀ a ∈ items, ∃ b, found a = some b ∧ R a b) :
    List.Forall₂ R items (items.filterMap found) := by
  induction items with
  | nil => exact .nil
  | cons a rest ih =>
      obtain ⟨b, hfound, hrel⟩ := h a List.mem_cons_self
      rw [List.filterMap_cons_some hfound]
      exact .cons hrel (ih fun a' ha' => h a' (List.mem_cons_of_mem a ha'))

/-- Components are represented by their least cycles. In a graph that any run of operations has
made, the cycles stand in the order of the components; the cycle of a component starts at its least
signature, no closed walk of the graph from there has fewer calls, and of those with as few it is
the first in the order of signatures. -/
theorem cycles_are_least (changes : List Change) :
    List.Forall₂
      (fun members cycle => ∃ start ∈ members,
        (∀ t ∈ members, start ≤ t) ∧ (ofChanges changes).IsLeastCycle start cycle)
      (ofChanges changes).components (ofChanges changes).cycles := by
  have hg := wellFormed_ofChanges changes
  apply forall₂_filterMap
  intro members hmembers
  exact (hg.mem_components_iff.mp hmembers).exists_least hg

example :
    (ofChanges
      [.addEdge "A.a" "C.c", .addEdge "C.c" "D.d", .addEdge "D.d" "A.a", .addEdge "A.a" "B.b",
       .addEdge "B.b" "D.d"]).cycles = [["A.a", "B.b", "D.d", "A.a"]] := by
  decide

end CallTrace.CallGraph
