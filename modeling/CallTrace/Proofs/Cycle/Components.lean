import CallTrace.Proofs.Cycle.Closure

/-!
The components of a graph: the classes of signatures that reach each other, so far as they hold a
cycle. Each is listed at its least member, so the list rises.
-/

namespace CallTrace.CallGraph

def Mutual (g : CallGraph) (s t : Signature) : Prop :=
  g.Reaches s t ∧ g.Reaches t s

/-- Some calls lead from the signature back to it. -/
def OnCycle (g : CallGraph) (s : Signature) : Prop :=
  ∃ n, g.ReachesIn (n + 1) s s

namespace Mutual

variable {g : CallGraph} {s t u : Signature}

theorem refl (s : Signature) : g.Mutual s s :=
  ⟨.refl s, .refl s⟩

theorem symm (h : g.Mutual s t) : g.Mutual t s :=
  ⟨h.2, h.1⟩

theorem trans (hfirst : g.Mutual s t) (hsecond : g.Mutual t u) : g.Mutual s u :=
  ⟨hfirst.1.trans hsecond.1, hsecond.2.trans hfirst.2⟩

theorem hasNode (hg : g.WellFormed) (h : g.Mutual s t) (hs : g.hasNode s = true) :
    g.hasNode t = true :=
  h.1.hasNode hg hs

end Mutual

theorem OnCycle.hasNode {g : CallGraph} (hg : g.WellFormed) {s : Signature}
    (h : g.OnCycle s) : g.hasNode s = true := by
  obtain ⟨n, hcycle⟩ := h
  cases hcycle with
  | call _ hedge => exact hg.hasCallee hedge

theorem onCycle_of_calls {g : CallGraph} {s t : Signature} (hedge : g.hasEdge s t = true)
    (hback : g.Reaches t s) : g.OnCycle t := by
  obtain ⟨n, hn⟩ := hback
  exact ⟨n, hn.call hedge⟩

theorem ReachesIn.onCycle {g : CallGraph} {m n : Nat} {s t : Signature}
    (hthere : g.ReachesIn m s t) (hback : g.ReachesIn n t s) (hne : s ≠ t) : g.OnCycle s := by
  cases hback with
  | refl => exact absurd rfl hne
  | call hback hedge => exact ⟨_, (hthere.trans hback).call hedge⟩

theorem OnCycle.of_mutual {g : CallGraph} {s t : Signature} (hs : g.OnCycle s)
    (hmutual : g.Mutual s t) : g.OnCycle t := by
  obtain ⟨⟨m, hthere⟩, n, hback⟩ := hmutual
  by_cases heq : s = t
  · exact heq ▸ hs
  · exact hback.onCycle hthere (Ne.symm heq)

section ComponentOf

variable {g : CallGraph} {s t : Signature}

theorem WellFormed.mem_componentOf (hg : g.WellFormed) (hs : g.hasNode s = true) :
    t ∈ g.componentOf s ↔ g.Mutual s t := by
  simp only [componentOf, sortSignatures, mem_sortBy, List.mem_filter, List.contains_eq_mem,
    decide_eq_true_eq, hg.mem_descendants hs, hg.mem_ancestors hs]
  rfl

theorem WellFormed.componentOf_strict (hg : g.WellFormed) (hs : g.hasNode s = true) :
    (g.componentOf s).Pairwise (· < ·) :=
  sortSignatures_strict ((hg.nodup_descendants hs).filter _)

theorem WellFormed.componentOf_eq (hg : g.WellFormed) (hs : g.hasNode s = true)
    {members : List Signature} (hstrict : members.Pairwise (· < ·))
    (hmembers : ∀ t, t ∈ members ↔ g.Mutual s t) : members = g.componentOf s := by
  apply List.Pairwise.eq_of_mem_iff hstrict (hg.componentOf_strict hs)
  intro t
  rw [hmembers, hg.mem_componentOf hs]

theorem WellFormed.componentOf_eq_of_mutual (hg : g.WellFormed) (hs : g.hasNode s = true)
    (hmutual : g.Mutual s t) : g.componentOf s = g.componentOf t := by
  have ht := hmutual.hasNode hg hs
  apply hg.componentOf_eq ht (hg.componentOf_strict hs)
  intro u
  rw [hg.mem_componentOf hs]
  exact ⟨hmutual.symm.trans, hmutual.trans⟩

theorem isCyclic_iff {members : List Signature} :
    g.isCyclic members = true ↔
      1 < members.length ∨ ∃ s, members = [s] ∧ g.hasEdge s s = true := by
  match members with
  | [] => simp [isCyclic]
  | [s] => simp [isCyclic]
  | _ :: _ :: _ => simp [isCyclic]

theorem WellFormed.isCyclic_componentOf (hg : g.WellFormed) (hs : g.hasNode s = true) :
    g.isCyclic (g.componentOf s) = true ↔ g.OnCycle s := by
  have hself : s ∈ g.componentOf s := (hg.mem_componentOf hs).mpr (.refl s)
  rw [isCyclic_iff]
  constructor
  · intro hcyclic
    rcases hcyclic with hlength | ⟨t, hsingle, hedge⟩
    · obtain ⟨t, ht, hne⟩ : ∃ t ∈ g.componentOf s, s ≠ t := by
        by_contra hnone
        push Not at hnone
        have hall : ∀ t ∈ g.componentOf s, t = s := fun t ht => (hnone t ht).symm
        have hnodup := (hg.componentOf_strict hs).imp fun hlt => ne_of_lt hlt
        rw [List.eq_replicate_of_mem hall] at hnodup
        have := List.nodup_replicate.mp hnodup
        omega
      obtain ⟨⟨m, hthere⟩, n, hback⟩ := (hg.mem_componentOf hs).mp ht
      exact hthere.onCycle hback hne
    · rw [hsingle, List.mem_singleton] at hself
      subst hself
      exact ⟨0, .single hedge⟩
  · intro hcycle
    obtain ⟨n, hcycle⟩ := hcycle
    cases hcycle with
    | @call _ _ u _ hthere hedge =>
        have hu : u ∈ g.componentOf s := (hg.mem_componentOf hs).mpr ⟨⟨n, hthere⟩, .single hedge⟩
        generalize g.componentOf s = members at hself hu
        match members with
        | [] => contradiction
        | [t] =>
            rw [List.mem_singleton] at hself hu
            subst hself hu
            exact .inr ⟨_, rfl, hedge⟩
        | _ :: _ :: _ => exact .inl (by simp)

end ComponentOf

/-- A sweep over the signatures under way. What is covered are whole classes, and no cycle lies
outside what is covered and what is left. -/
structure Sweeping (g : CallGraph) (covered rest : List Signature) : Prop where
  strict : rest.Pairwise (· < ·)
  nodes : ∀ s ∈ rest, g.hasNode s = true
  whole : ∀ s t, s ∈ covered → g.Mutual s t → t ∈ covered
  left : ∀ s, g.OnCycle s → s ∈ covered ∨ s ∈ rest

namespace Sweeping

variable {g : CallGraph} {covered rest : List Signature} {s t : Signature}

theorem skip (h : g.Sweeping covered (s :: rest)) (hs : s ∈ covered ∨ ¬g.OnCycle s) :
    g.Sweeping covered rest where
  strict := h.strict.of_cons
  nodes u hu := h.nodes u (List.mem_cons_of_mem s hu)
  whole := h.whole
  left u hu := by
    rcases h.left u hu with hcovered | hrest
    · exact .inl hcovered
    · rcases List.mem_cons.mp hrest with rfl | hrest
      · exact .inl (hs.resolve_right (not_not_intro hu))
      · exact .inr hrest

theorem cover (h : g.Sweeping covered (s :: rest)) (hg : g.WellFormed) :
    g.Sweeping (covered ++ g.componentOf s) rest where
  strict := h.strict.of_cons
  nodes u hu := h.nodes u (List.mem_cons_of_mem s hu)
  whole u v hu huv := by
    have hs := h.nodes s List.mem_cons_self
    rcases List.mem_append.mp hu with hu | hu
    · exact List.mem_append_left _ (h.whole u v hu huv)
    · rw [hg.mem_componentOf hs] at hu
      exact List.mem_append_right _ ((hg.mem_componentOf hs).mpr (hu.trans huv))
  left u hu := by
    have hs := h.nodes s List.mem_cons_self
    rcases h.left u hu with hcovered | hrest
    · exact .inl (List.mem_append_left _ hcovered)
    · rcases List.mem_cons.mp hrest with rfl | hrest
      · exact .inl (List.mem_append_right _ ((hg.mem_componentOf hs).mpr (.refl u)))
      · exact .inr hrest

/-- A class that is not covered when the sweep comes to it has its least member there. -/
theorem least (h : g.Sweeping covered (s :: rest)) (hs : s ∉ covered)
    (hcycle : g.OnCycle s) (hmutual : g.Mutual s t) : s ≤ t := by
  have ht : t ∉ covered := fun hcovered => hs (h.whole t s hcovered hmutual.symm)
  rcases List.mem_cons.mp ((h.left t (hcycle.of_mutual hmutual)).resolve_left ht) with rfl | hrest
  · exact le_rfl
  · exact le_of_lt (List.rel_of_pairwise_cons h.strict hrest)

theorem exists_cons_eq_componentOf (h : g.Sweeping covered (s :: rest)) (hg : g.WellFormed)
    (hs : s ∉ covered) (hcycle : g.OnCycle s) : ∃ others, g.componentOf s = s :: others := by
  have hnode := h.nodes s List.mem_cons_self
  have hself : s ∈ g.componentOf s := (hg.mem_componentOf hnode).mpr (.refl s)
  cases hmembers : g.componentOf s with
  | nil =>
      rw [hmembers] at hself
      contradiction
  | cons first others =>
      have hfirst : first ∈ g.componentOf s := by simp [hmembers]
      have hle := h.least hs hcycle ((hg.mem_componentOf hnode).mp hfirst)
      have hstrict := hg.componentOf_strict hnode
      rw [hmembers] at hself hstrict
      rcases List.mem_cons.mp hself with rfl | hothers
      · exact ⟨others, rfl⟩
      · exact absurd (List.rel_of_pairwise_cons hstrict hothers) (not_lt_of_ge hle)

end Sweeping

theorem Sweeping.start {g : CallGraph} (hg : g.WellFormed) : g.Sweeping [] g.signatures where
  strict := g.signatures_strict
  nodes _ hs := mem_signatures.mp hs
  whole _ _ hs _ := by contradiction
  left _ hs := .inr (mem_signatures.mpr (hs.hasNode hg))

section ComponentsFrom

variable {g : CallGraph} {covered rest : List Signature} {s : Signature}

theorem componentsFrom_skip (hg : g.WellFormed) (hs : g.hasNode s = true)
    (hskip : s ∈ covered ∨ ¬g.OnCycle s) :
    g.componentsFrom covered (s :: rest) = g.componentsFrom covered rest := by
  rw [componentsFrom]
  by_cases hcovered : s ∈ covered
  · rw [if_pos (by simpa using hcovered)]
  · have hcyclic : ¬g.isCyclic (g.componentOf s) = true := by
      rw [hg.isCyclic_componentOf hs]
      exact hskip.resolve_left hcovered
    rw [if_neg (by simpa using hcovered)]
    simp only [hcyclic, if_false, Bool.false_eq_true]

theorem componentsFrom_cover (hg : g.WellFormed) (hs : g.hasNode s = true) (hnew : s ∉ covered)
    (hcycle : g.OnCycle s) :
    g.componentsFrom covered (s :: rest) =
      g.componentOf s :: g.componentsFrom (covered ++ g.componentOf s) rest := by
  have hcyclic := (hg.isCyclic_componentOf hs).mpr hcycle
  rw [componentsFrom, if_neg (by simpa using hnew)]
  simp only [hcyclic, if_true]

theorem Sweeping.mem_componentsFrom (h : g.Sweeping covered rest) (hg : g.WellFormed)
    {members : List Signature} :
    members ∈ g.componentsFrom covered rest ↔
      ∃ s ∈ rest, s ∉ covered ∧ g.OnCycle s ∧ members = g.componentOf s := by
  induction rest generalizing covered with
  | nil => simp [componentsFrom]
  | cons s rest ih =>
      have hs := h.nodes s List.mem_cons_self
      by_cases hskip : s ∈ covered ∨ ¬g.OnCycle s
      · rw [componentsFrom_skip hg hs hskip, ih (h.skip hskip), List.exists_mem_cons_iff]
        refine (or_iff_right ?_).symm
        rintro ⟨hnew, hcycle, -⟩
        exact hskip.elim hnew (not_not_intro hcycle)
      · rw [not_or, not_not] at hskip
        obtain ⟨hnew, hcycle⟩ := hskip
        rw [componentsFrom_cover hg hs hnew hcycle, List.mem_cons, ih (h.cover hg),
          List.exists_mem_cons_iff]
        constructor
        · intro hcase
          rcases hcase with rfl | ⟨t, ht, htnew, htcycle, rfl⟩
          · exact .inl ⟨hnew, hcycle, rfl⟩
          · exact .inr ⟨t, ht, fun hold => htnew (List.mem_append_left _ hold), htcycle, rfl⟩
        · intro hcase
          rcases hcase with ⟨-, -, rfl⟩ | ⟨t, ht, htnew, htcycle, rfl⟩
          · exact .inl rfl
          · -- a later member of the class just covered has that class
            by_cases hmutual : g.Mutual s t
            · exact .inl (hg.componentOf_eq_of_mutual hs hmutual).symm
            · refine .inr ⟨t, ht, ?_, htcycle, rfl⟩
              rw [List.mem_append, hg.mem_componentOf hs]
              exact not_or_intro htnew hmutual

theorem Sweeping.componentsFrom_strict (h : g.Sweeping covered rest) (hg : g.WellFormed) :
    (g.componentsFrom covered rest).Pairwise (· < ·) ∧
      ∀ members ∈ g.componentsFrom covered rest, ∃ s ∈ rest, ∃ others, members = s :: others := by
  induction rest generalizing covered with
  | nil => simp [componentsFrom]
  | cons s rest ih =>
      have hs := h.nodes s List.mem_cons_self
      by_cases hskip : s ∈ covered ∨ ¬g.OnCycle s
      · obtain ⟨hstrict, hheads⟩ := ih (h.skip hskip)
        rw [componentsFrom_skip hg hs hskip]
        refine ⟨hstrict, fun members hmem => ?_⟩
        obtain ⟨t, ht, hother⟩ := hheads members hmem
        exact ⟨t, List.mem_cons_of_mem s ht, hother⟩
      · rw [not_or, not_not] at hskip
        obtain ⟨hnew, hcycle⟩ := hskip
        obtain ⟨hstrict, hheads⟩ := ih (h.cover hg)
        obtain ⟨others, hothers⟩ := h.exists_cons_eq_componentOf hg hnew hcycle
        rw [componentsFrom_cover hg hs hnew hcycle]
        refine ⟨List.pairwise_cons.mpr ⟨?_, hstrict⟩, ?_⟩
        · intro members hmem
          obtain ⟨t, ht, others', rfl⟩ := hheads members hmem
          rw [hothers]
          exact List.cons_lt_cons_iff.mpr (.inl (List.rel_of_pairwise_cons h.strict ht))
        · intro members hmem
          rcases List.mem_cons.mp hmem with rfl | hmem
          · exact ⟨s, List.mem_cons_self, others, hothers⟩
          · obtain ⟨t, ht, hother⟩ := hheads members hmem
            exact ⟨t, List.mem_cons_of_mem s ht, hother⟩

end ComponentsFrom

/-- A class of mutual reach, in rising order, that has a cycle: it has several members, or one that
calls itself. -/
structure IsComponent (g : CallGraph) (members : List Signature) : Prop where
  strict : members.Pairwise (· < ·)
  isClass : ∃ s, g.hasNode s = true ∧ ∀ t, t ∈ members ↔ g.Mutual s t
  cyclic : 1 < members.length ∨ ∃ s, members = [s] ∧ g.hasEdge s s = true

section Components

variable {g : CallGraph}

theorem WellFormed.mem_components (hg : g.WellFormed) {members : List Signature} :
    members ∈ g.components ↔ ∃ s, g.OnCycle s ∧ members = g.componentOf s := by
  rw [components, (Sweeping.start hg).mem_componentsFrom hg]
  constructor
  · intro h
    obtain ⟨s, -, -, hcycle, rfl⟩ := h
    exact ⟨s, hcycle, rfl⟩
  · intro h
    obtain ⟨s, hcycle, rfl⟩ := h
    exact ⟨s, mem_signatures.mpr (hcycle.hasNode hg), List.not_mem_nil, hcycle, rfl⟩

theorem WellFormed.mem_components_iff (hg : g.WellFormed) {members : List Signature} :
    members ∈ g.components ↔ g.IsComponent members := by
  rw [hg.mem_components]
  constructor
  · intro h
    obtain ⟨s, hcycle, rfl⟩ := h
    have hs := hcycle.hasNode hg
    exact
      { strict := hg.componentOf_strict hs
        isClass := ⟨s, hs, fun _ => hg.mem_componentOf hs⟩
        cyclic := isCyclic_iff.mp ((hg.isCyclic_componentOf hs).mpr hcycle) }
  · intro h
    obtain ⟨s, hs, hmembers⟩ := h.isClass
    obtain rfl := hg.componentOf_eq hs h.strict hmembers
    exact ⟨s, (hg.isCyclic_componentOf hs).mp (isCyclic_iff.mpr h.cyclic), rfl⟩

theorem WellFormed.components_strict (hg : g.WellFormed) : g.components.Pairwise (· < ·) :=
  ((Sweeping.start hg).componentsFrom_strict hg).1

end Components

end CallTrace.CallGraph
