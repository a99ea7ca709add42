import CallTrace.Proofs.Cycle.Components

/-!
The search for a cycle inside a component. The paths in its queue are walks from the start that
repeat nothing; what was seen and is not queued calls nothing unseen and does not call the start.
So a search that ran out would have closed what the start reaches without coming back to it, and in
a component the start does come back.
-/

namespace CallTrace.CallGraph

/-- A closed walk inside the members, from the first of them back to it, that passes no other
signature twice. -/
structure IsCycleOf (g : CallGraph) (members : List Signature) (cycle : Cycle) : Prop where
  walk : g.IsWalk cycle
  within : cycle ⊆ members
  closed : ∃ start inner, cycle = start :: (inner ++ [start]) ∧ members.head? = some start ∧
    (start :: inner).Nodup

structure IsTrail (g : CallGraph) (start : Signature) (seen : List Signature)
    (path : List Signature) : Prop where
  walk : g.IsWalk path.reverse
  head : path.reverse.head? = some start
  nodup : path.Nodup
  seen : path ⊆ seen

namespace IsTrail

variable {g : CallGraph} {start current next : Signature} {seen more trail : List Signature}

theorem mono (h : g.IsTrail start seen trail) (hseen : seen ⊆ more) :
    g.IsTrail start more trail :=
  { h with seen := List.Subset.trans h.seen hseen }

theorem extend (h : g.IsTrail start seen (current :: trail)) (hedge : g.hasEdge current next = true)
    (hnext : next ∉ seen) (hseen : seen ⊆ more) (hmore : next ∈ more) :
    g.IsTrail start more (next :: current :: trail) where
  walk := by
    rw [List.reverse_cons, List.reverse_cons, isWalk_concat_concat, ← List.reverse_cons]
    exact ⟨h.walk, hedge⟩
  head := by
    rw [List.reverse_cons, List.head?_append, h.head]
    rfl
  nodup := List.nodup_cons.mpr ⟨fun hmem => hnext (h.seen hmem), h.nodup⟩
  seen := List.cons_subset.mpr ⟨hmore, List.Subset.trans h.seen hseen⟩

theorem isCycleOf {others : List Signature} (h : g.IsTrail start seen (current :: trail))
    (hedge : g.hasEdge current start = true) (hseen : seen ⊆ start :: others) :
    g.IsCycleOf (start :: others) (start :: current :: trail).reverse := by
  obtain ⟨inner, hinner⟩ : ∃ inner, (current :: trail).reverse = start :: inner := by
    cases hpath : (current :: trail).reverse with
    | nil => simp at hpath
    | cons first inner =>
        have hhead := h.head
        rw [hpath, List.head?_cons, Option.some.injEq] at hhead
        exact ⟨inner, by rw [hhead]⟩
  have hcycle : (start :: current :: trail).reverse = start :: (inner ++ [start]) := by
    rw [List.reverse_cons, hinner]
    rfl
  refine ⟨?_, ?_, start, inner, hcycle, rfl, ?_⟩
  · rw [List.reverse_cons, List.reverse_cons, isWalk_concat_concat, ← List.reverse_cons]
    exact ⟨h.walk, hedge⟩
  · intro s hs
    rw [List.mem_reverse, List.mem_cons] at hs
    rcases hs with rfl | hs
    · exact List.mem_cons_self
    · exact hseen (h.seen hs)
  · rw [← hinner, List.nodup_reverse]
    exact h.nodup

end IsTrail

def unseenCallees (g : CallGraph) (members seen : List Signature) (s : Signature) :
    List Signature :=
  ((g.successors s).filter fun t => members.contains t).filter fun t => !seen.contains t

theorem mem_unseenCallees {g : CallGraph} {members seen : List Signature} {s t : Signature} :
    t ∈ g.unseenCallees members seen s ↔ g.hasEdge s t = true ∧ t ∈ members ∧ t ∉ seen := by
  simp only [unseenCallees, List.mem_filter, mem_successors, List.contains_eq_mem,
    decide_eq_true_eq, Bool.not_eq_true', decide_eq_false_iff_not, and_assoc]

theorem cycleSearch_succ {g : CallGraph} {members : List Signature} {start current : Signature}
    (hstart : start ∈ members) (steps : Nat) (seen trail : List Signature)
    (queue : List (Signature × List Signature)) :
    g.cycleSearch members start (steps + 1) seen ((current, trail) :: queue) =
      if g.hasEdge current start then some (start :: current :: trail).reverse
      else
        g.cycleSearch members start steps (seen ++ g.unseenCallees members seen current)
          (queue ++ (g.unseenCallees members seen current).map fun s => (s, current :: trail)) := by
  have hcalls : ((g.successors current).filter fun s => members.contains s).contains start =
      g.hasEdge current start := by
    rw [Bool.eq_iff_iff]
    simp [hstart]
  rw [cycleSearch, hcalls]
  rfl

/-- A search under way, with the steps left for what is queued and what was not seen. -/
structure Seeking (g : CallGraph) (members : List Signature) (start : Signature) (steps : Nat)
    (seen : List Signature) (queue : List (Signature × List Signature)) : Prop where
  nodup : seen.Nodup
  subset : seen ⊆ members
  start_mem : start ∈ seen
  trails : ∀ path ∈ queue, g.IsTrail start seen (path.1 :: path.2)
  finished : ∀ s ∈ seen, (∀ path ∈ queue, path.1 ≠ s) →
    g.hasEdge s start = false ∧ g.unseenCallees members seen s = []
  enough : members.length + queue.length ≤ steps + seen.length

namespace Seeking

variable {g : CallGraph} {members : List Signature} {start current : Signature} {steps : Nat}
  {seen trail : List Signature} {queue : List (Signature × List Signature)}

theorem step (h : g.Seeking members start (steps + 1) seen ((current, trail) :: queue))
    (hg : g.WellFormed) (hopen : g.hasEdge current start = false) :
    g.Seeking members start steps (seen ++ g.unseenCallees members seen current)
      (queue ++ (g.unseenCallees members seen current).map fun s => (s, current :: trail)) where
  nodup := by
    have hcallees := (hg.successors_strict current).imp fun hlt => ne_of_lt hlt
    rw [List.nodup_append]
    refine ⟨h.nodup, (List.Nodup.filter _ (List.Nodup.filter _ hcallees)), ?_⟩
    rintro s hs t ht rfl
    exact (mem_unseenCallees.mp ht).2.2 hs
  subset := by
    apply List.append_subset.mpr ⟨h.subset, ?_⟩
    intro t ht
    exact (mem_unseenCallees.mp ht).2.1
  start_mem := List.mem_append_left _ h.start_mem
  trails path hpath := by
    have hseen : seen ⊆ seen ++ g.unseenCallees members seen current :=
      List.subset_append_left _ _
    rcases List.mem_append.mp hpath with hpath | hpath
    · exact (h.trails path (List.mem_cons_of_mem _ hpath)).mono hseen
    · obtain ⟨t, ht, rfl⟩ := List.mem_map.mp hpath
      obtain ⟨hedge, -, hnew⟩ := mem_unseenCallees.mp ht
      exact (h.trails (current, trail) List.mem_cons_self).extend hedge hnew hseen
        (List.mem_append_right _ ht)
  finished s hs hqueue := by
    have hold : s ∈ seen := by
      rcases List.mem_append.mp hs with hs | hs
      · exact hs
      · exact absurd rfl (hqueue (s, current :: trail)
          (List.mem_append_right _ (List.mem_map.mpr ⟨s, hs, rfl⟩)))
    have hclosed : g.hasEdge s start = false ∧
        ∀ t, g.hasEdge s t = true → t ∈ members →
          t ∈ seen ++ g.unseenCallees members seen current := by
      by_cases hcurrent : current = s
      · subst hcurrent
        refine ⟨hopen, fun t hedge ht => ?_⟩
        by_cases hseen : t ∈ seen
        · exact List.mem_append_left _ hseen
        · exact List.mem_append_right _ (mem_unseenCallees.mpr ⟨hedge, ht, hseen⟩)
      · obtain ⟨hback, hnone⟩ := h.finished s hold (by
          intro path hpath
          rcases List.mem_cons.mp hpath with rfl | hpath
          · exact hcurrent
          · exact hqueue path (List.mem_append_left _ hpath))
        refine ⟨hback, fun t hedge ht => ?_⟩
        by_contra hnew
        have hmem := mem_unseenCallees.mpr
          ⟨hedge, ht, fun hseen => hnew (List.mem_append_left _ hseen)⟩
        rw [hnone] at hmem
        contradiction
    refine ⟨hclosed.1, List.eq_nil_iff_forall_not_mem.mpr fun t ht => ?_⟩
    obtain ⟨hedge, hmember, hnew⟩ := mem_unseenCallees.mp ht
    exact hnew (hclosed.2 t hedge hmember)
  enough := by
    have henough := h.enough
    simp only [List.length_cons, List.length_append, List.length_map] at henough ⊢
    omega

/-- Nothing is left to do only if the start does not come back to itself. -/
theorem not_onCycle (h : g.Seeking members start steps seen [])
    (hmembers : ∀ t, t ∈ members ↔ g.Mutual start t) : ¬g.OnCycle start := by
  have hseen : ∀ n t, g.ReachesIn n start t → g.Reaches t start → t ∈ seen := by
    intro n t hreach
    induction hreach with
    | refl => exact fun _ => h.start_mem
    | @call n _ u v hreach hedge ih =>
        intro hback
        have hu := ih h hmembers ((Reaches.single hedge).trans hback)
        have hv : v ∈ members := (hmembers v).mpr ⟨⟨n + 1, hreach.call hedge⟩, hback⟩
        by_contra hnew
        have hmem := mem_unseenCallees.mpr ⟨hedge, hv, hnew⟩
        rw [(h.finished u hu (by simp)).2] at hmem
        contradiction
  rintro ⟨n, hcycle⟩
  cases hcycle with
  | call hreach hedge =>
      have hlast := hseen _ _ hreach (.single hedge)
      rw [(h.finished _ hlast (by simp)).1] at hedge
      contradiction

theorem queue_eq_nil (h : g.Seeking members start 0 seen queue) : queue = [] := by
  have hlength := (List.subperm_of_subset h.nodup h.subset).length_le
  have henough := h.enough
  apply List.eq_nil_of_length_eq_zero
  omega

theorem exists_cycle {others : List Signature}
    (h : g.Seeking (start :: others) start steps seen queue) (hg : g.WellFormed)
    (hmembers : ∀ t, t ∈ start :: others ↔ g.Mutual start t) (hcycle : g.OnCycle start) :
    ∃ cycle, g.cycleSearch (start :: others) start steps seen queue = some cycle ∧
      g.IsCycleOf (start :: others) cycle := by
  induction steps generalizing seen queue with
  | zero =>
      -- the steps cover all members, so they run out only after the queue
      obtain rfl := h.queue_eq_nil
      exact absurd hcycle (h.not_onCycle hmembers)
  | succ steps ih =>
      match queue with
      | [] => exact absurd hcycle (h.not_onCycle hmembers)
      | (current, trail) :: queue =>
          rw [cycleSearch_succ List.mem_cons_self]
          cases hedge : g.hasEdge current start with
          | true =>
              exact ⟨_, rfl, (h.trails (current, trail) List.mem_cons_self).isCycleOf hedge
                h.subset⟩
          | false => exact ih (h.step hg hedge)

theorem start_single (g : CallGraph) (start : Signature) (others : List Signature) :
    g.Seeking (start :: others) start (start :: others).length [start] [(start, [])] where
  nodup := List.nodup_singleton start
  subset := by simp
  start_mem := List.mem_singleton_self start
  trails path hpath := by
    obtain rfl := List.mem_singleton.mp hpath
    exact ⟨by simp [IsWalk], rfl, List.nodup_singleton start, by simp⟩
  finished s hs hqueue := by
    obtain rfl := List.mem_singleton.mp hs
    exact absurd rfl (hqueue (s, []) List.mem_cons_self)
  enough := Nat.le_refl _

end Seeking

section Cycles

variable {g : CallGraph}

theorem IsComponent.onCycle (hg : g.WellFormed) {members : List Signature}
    (h : g.IsComponent members) {s : Signature} (hs : s ∈ members) : g.OnCycle s := by
  obtain ⟨t, ht, hmembers⟩ := h.isClass
  obtain rfl := hg.componentOf_eq ht h.strict hmembers
  have hcycle := (hg.isCyclic_componentOf ht).mp (isCyclic_iff.mpr h.cyclic)
  exact hcycle.of_mutual ((hmembers s).mp hs)

theorem IsComponent.mem_iff_mutual {members : List Signature} (h : g.IsComponent members)
    {s : Signature} (hs : s ∈ members) (t : Signature) : t ∈ members ↔ g.Mutual s t := by
  obtain ⟨u, -, hmembers⟩ := h.isClass
  have hus := (hmembers s).mp hs
  rw [hmembers]
  exact ⟨hus.symm.trans, hus.trans⟩

theorem IsComponent.exists_cycle (hg : g.WellFormed) {members : List Signature}
    (h : g.IsComponent members) :
    ∃ cycle, g.cycleWithin? members = some cycle ∧ g.IsCycleOf members cycle := by
  match members with
  | [] => simpa using h.cyclic
  | start :: others =>
      exact (Seeking.start_single g start others).exists_cycle hg
        (h.mem_iff_mutual List.mem_cons_self) (h.onCycle hg List.mem_cons_self)

theorem WellFormed.map_some_cycles (hg : g.WellFormed) :
    g.cycles.map some = g.components.map g.cycleWithin? := by
  have hall : ∀ members ∈ g.components, (g.cycleWithin? members).isSome := by
    intro members hmem
    obtain ⟨cycle, hcycle, -⟩ := (hg.mem_components_iff.mp hmem).exists_cycle hg
    rw [hcycle]
    rfl
  rw [cycles, List.map_filterMap_some_eq_filter_map_isSome, List.filter_eq_self]
  simpa using hall

theorem WellFormed.cycles_eq_nil (hg : g.WellFormed) :
    g.cycles = [] ↔ ∀ s, ¬g.OnCycle s := by
  have hcomponents : g.cycles = [] ↔ g.components = [] := by
    rw [← List.map_eq_nil_iff (f := some), hg.map_some_cycles, List.map_eq_nil_iff]
  rw [hcomponents, List.eq_nil_iff_forall_not_mem]
  simp only [hg.mem_components, not_exists, not_and]
  constructor
  · intro h s hs
    exact h _ s hs rfl
  · intro h members s hs
    exact absurd hs (h s)

end Cycles

/-- Cycles are reported completely and exactly. In a graph that any run of operations has made, the
components are the classes of mutual reach that have a cycle, in strictly rising order. For each of
them, in the same order, there is one cycle: a closed walk inside the component from its least
member, which passes no other signature twice. There are none exactly if no calls lead from a
signature back to it. -/
theorem cycles_represent_components (changes : List Change) :
    (∀ members, members ∈ (ofChanges changes).components ↔
      (ofChanges changes).IsComponent members) ∧
    (ofChanges changes).components.Pairwise (· < ·) ∧
    (ofChanges changes).cycles.map some =
      (ofChanges changes).components.map (ofChanges changes).cycleWithin? ∧
    (∀ members ∈ (ofChanges changes).components, ∃ cycle,
      (ofChanges changes).cycleWithin? members = some cycle ∧
        (ofChanges changes).IsCycleOf members cycle) ∧
    ((ofChanges changes).cycles = [] ↔
      ∀ s n, ¬(ofChanges changes).ReachesIn (n + 1) s s) := by
  have hg := wellFormed_ofChanges changes
  refine ⟨fun _ => hg.mem_components_iff, hg.components_strict, hg.map_some_cycles, ?_, ?_⟩
  · intro members hmem
    exact (hg.mem_components_iff.mp hmem).exists_cycle hg
  · rw [hg.cycles_eq_nil]
    simp only [OnCycle, not_exists]

end CallTrace.CallGraph
