import CallTrace.Cycle
import CallTrace.Proofs.CallGraph.Reach
import CallTrace.Proofs.Firsts

/-!
Closure level by level finds all that is reached. A level that finds nothing new ends the search,
and no search has more levels than there are signatures to find.
-/

namespace CallTrace

def freshOf (next : Signature → List Signature) (seen frontier : List Signature) :
    List Signature :=
  ((frontier.flatMap next).filter fun s => !seen.contains s).eraseDups

theorem mem_freshOf {next : Signature → List Signature} {seen frontier : List Signature}
    {t : Signature} :
    t ∈ freshOf next seen frontier ↔ (∃ s ∈ frontier, t ∈ next s) ∧ t ∉ seen := by
  simp [freshOf, List.mem_eraseDups]

theorem closureFrom_succ (next : Signature → List Signature) (steps : Nat)
    (seen frontier : List Signature) :
    closureFrom next (steps + 1) seen frontier =
      if freshOf next seen frontier = [] then seen
      else closureFrom next steps (seen ++ freshOf next seen frontier)
        (freshOf next seen frontier) := by
  rw [closureFrom, ← freshOf]
  split
  · rename_i hnone
    rw [if_pos hnone]
  · rename_i hsome
    rw [if_neg hsome]

section Closure

variable {next : Signature → List Signature}

theorem mem_closureFrom_of_mem {steps : Nat} {seen frontier : List Signature} {s : Signature}
    (hs : s ∈ seen) : s ∈ closureFrom next steps seen frontier := by
  induction steps generalizing seen frontier with
  | zero => exact hs
  | succ steps ih =>
      rw [closureFrom_succ]
      split
      · exact hs
      · exact ih (List.mem_append_left _ hs)

theorem of_mem_closureFrom {found : Signature → Prop}
    (hnext : ∀ s t, found s → t ∈ next s → found t) {steps : Nat}
    {seen frontier : List Signature} (hseen : ∀ s ∈ seen, found s)
    (hfrontier : ∀ s ∈ frontier, found s) :
    ∀ s ∈ closureFrom next steps seen frontier, found s := by
  induction steps generalizing seen frontier with
  | zero => exact hseen
  | succ steps ih =>
      have hfresh : ∀ t ∈ freshOf next seen frontier, found t := by
        intro t ht
        obtain ⟨⟨s, hs, hst⟩, -⟩ := mem_freshOf.mp ht
        exact hnext s t (hfrontier s hs) hst
      rw [closureFrom_succ]
      split
      · exact hseen
      · apply ih _ hfresh
        intro s hs
        rcases List.mem_append.mp hs with hs | hs
        · exact hseen s hs
        · exact hfresh s hs

/-- A search under way: what was seen is distinct and known, only the frontier may lead on, and the
levels left are enough for what was not seen. -/
structure Searching (next : Signature → List Signature) (known : List Signature) (steps : Nat)
    (seen frontier : List Signature) : Prop where
  nodup : seen.Nodup
  subset : seen ⊆ known
  frontier_subset : frontier ⊆ seen
  closed : ∀ s ∈ seen, s ∉ frontier → ∀ t ∈ next s, t ∈ seen
  enough : known.length ≤ steps + seen.length

namespace Searching

variable {known seen frontier : List Signature} {steps : Nat}

theorem level (h : Searching next known (steps + 1) seen frontier)
    (hknown : ∀ s ∈ known, next s ⊆ known) (hfresh : freshOf next seen frontier ≠ []) :
    Searching next known steps (seen ++ freshOf next seen frontier)
      (freshOf next seen frontier) where
  nodup := by
    rw [List.nodup_append]
    refine ⟨h.nodup, nodup_eraseDups _, ?_⟩
    rintro s hs t ht rfl
    exact (mem_freshOf.mp ht).2 hs
  subset := by
    apply List.append_subset.mpr ⟨h.subset, ?_⟩
    intro t ht
    obtain ⟨⟨s, hs, hst⟩, -⟩ := mem_freshOf.mp ht
    exact hknown s (h.subset (h.frontier_subset hs)) hst
  frontier_subset := List.subset_append_right _ _
  closed s hs hnew t hst := by
    rcases List.mem_append.mp hs with hs | hs
    · by_cases ht : t ∈ seen
      · exact List.mem_append_left _ ht
      · by_cases hfrontier : s ∈ frontier
        · exact List.mem_append_right _ (mem_freshOf.mpr ⟨⟨s, hfrontier, hst⟩, ht⟩)
        · exact absurd (h.closed s hs hfrontier t hst) ht
    · exact absurd hs hnew
  enough := by
    have hlength := List.length_pos_of_ne_nil hfresh
    have henough := h.enough
    rw [List.length_append]
    omega

theorem closed_of_freshOf_nil (h : Searching next known steps seen frontier)
    (hfresh : freshOf next seen frontier = []) : ∀ s ∈ seen, ∀ t ∈ next s, t ∈ seen := by
  intro s hs t hst
  by_cases hfrontier : s ∈ frontier
  · by_contra ht
    have hmem := mem_freshOf.mpr ⟨⟨s, hfrontier, hst⟩, ht⟩
    rw [hfresh] at hmem
    exact List.not_mem_nil hmem
  · exact h.closed s hs hfrontier t hst

theorem closed_of_zero (h : Searching next known 0 seen frontier)
    (hknown : ∀ s ∈ known, next s ⊆ known) : ∀ s ∈ seen, ∀ t ∈ next s, t ∈ seen := by
  have hall : seen.Perm known := by
    apply (List.subperm_of_subset h.nodup h.subset).perm_of_length_le
    simpa using h.enough
  intro s hs t hst
  exact hall.mem_iff.mpr (hknown s (h.subset hs) hst)

theorem closureFrom_closed (h : Searching next known steps seen frontier)
    (hknown : ∀ s ∈ known, next s ⊆ known) :
    ∀ s ∈ closureFrom next steps seen frontier, ∀ t ∈ next s,
      t ∈ closureFrom next steps seen frontier := by
  induction steps generalizing seen frontier with
  | zero => exact h.closed_of_zero hknown
  | succ steps ih =>
      rw [closureFrom_succ]
      split
      · rename_i hfresh
        exact h.closed_of_freshOf_nil hfresh
      · rename_i hfresh
        exact ih (h.level hknown hfresh)

theorem nodup_closureFrom (h : Searching next known steps seen frontier)
    (hknown : ∀ s ∈ known, next s ⊆ known) : (closureFrom next steps seen frontier).Nodup := by
  induction steps generalizing seen frontier with
  | zero => exact h.nodup
  | succ steps ih =>
      rw [closureFrom_succ]
      split
      · exact h.nodup
      · rename_i hfresh
        exact ih (h.level hknown hfresh)

theorem start {s : Signature} (hs : s ∈ known) : Searching next known known.length [s] [s] where
  nodup := List.nodup_singleton s
  subset := by simpa using hs
  frontier_subset := List.Subset.refl _
  closed t ht hnew := absurd ht hnew
  enough := Nat.le_add_right _ _

end Searching

theorem mem_closureFrom_start {known : List Signature} (hknown : ∀ s ∈ known, next s ⊆ known)
    {s t : Signature} (hs : s ∈ known) :
    t ∈ closureFrom next known.length [s] [s] ↔
      Relation.ReflTransGen (fun u v => v ∈ next u) s t := by
  constructor
  · have hroot : ∀ u ∈ [s], Relation.ReflTransGen (fun u v => v ∈ next u) s u := by
      intro u hu
      rw [List.mem_singleton.mp hu]
    exact of_mem_closureFrom (fun _ _ hu hv => hu.tail hv) hroot hroot t
  · intro hreach
    induction hreach with
    | refl => exact mem_closureFrom_of_mem (List.mem_singleton_self s)
    | tail _ hstep ih => exact (Searching.start hs).closureFrom_closed hknown _ ih _ hstep

end Closure

namespace CallGraph

variable {g : CallGraph} {s t : Signature}

theorem mem_map_signature : s ∈ g.nodes.map (fun n => n.signature) ↔ g.hasNode s = true := by
  rw [List.mem_map, hasNode_iff]

theorem length_le_of_known {path : List Signature} (hnodup : path.Nodup)
    (hknown : ∀ s ∈ path, g.hasNode s = true) : path.length ≤ g.nodes.length := by
  have hsubset : path ⊆ g.nodes.map fun n => n.signature :=
    fun s hs => mem_map_signature.mpr (hknown s hs)
  simpa using (List.subperm_of_subset hnodup hsubset).length_le

theorem WellFormed.successors_known (hg : g.WellFormed) :
    ∀ u ∈ g.nodes.map (fun n => n.signature),
      g.successors u ⊆ g.nodes.map fun n => n.signature := by
  intro u _ v hv
  exact mem_map_signature.mpr (hg.hasCallee (mem_successors.mp hv))

theorem WellFormed.predecessors_known (hg : g.WellFormed) :
    ∀ u ∈ g.nodes.map (fun n => n.signature),
      g.predecessors u ⊆ g.nodes.map fun n => n.signature := by
  intro u _ v hv
  exact mem_map_signature.mpr (hg.hasCaller (mem_predecessors.mp hv))

theorem WellFormed.mem_descendants (hg : g.WellFormed) (hs : g.hasNode s = true) :
    t ∈ g.descendants s ↔ g.Reaches s t := by
  have hclosure := mem_closureFrom_start hg.successors_known (mem_map_signature.mpr hs) (t := t)
  rw [List.length_map] at hclosure
  rw [descendants, hclosure, reaches_iff_reflTransGen]
  simp only [mem_successors]

theorem WellFormed.mem_ancestors (hg : g.WellFormed) (hs : g.hasNode s = true) :
    t ∈ g.ancestors s ↔ g.Reaches t s := by
  have hclosure := mem_closureFrom_start hg.predecessors_known (mem_map_signature.mpr hs) (t := t)
  rw [List.length_map] at hclosure
  rw [ancestors, hclosure, reaches_iff_reflTransGen]
  simp only [mem_predecessors]
  exact Relation.reflTransGen_swap

theorem WellFormed.nodup_descendants (hg : g.WellFormed) (hs : g.hasNode s = true) :
    (g.descendants s).Nodup := by
  have hnodup := (Searching.start (mem_map_signature.mpr hs)).nodup_closureFrom hg.successors_known
  rw [List.length_map] at hnodup
  exact hnodup

end CallGraph

end CallTrace
