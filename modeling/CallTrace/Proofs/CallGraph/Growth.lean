import CallTrace.Proofs.CallGraph.Content

/-!
What operations add to a graph that holds something already: behind its edges new ones, each once,
and behind its nodes the missing ends of edges. Operations whose edges are all there add nothing.
-/

namespace CallTrace.CallGraph

/-- The second graph has the edges of the first in their places, and behind them others, each
once. -/
def Extends (g after : CallGraph) : Prop :=
  ∃ added, after.edges = g.edges ++ added ∧ added.Nodup ∧ ∀ e ∈ added, e ∉ g.edges

namespace Extends

variable {g middle after other : CallGraph}

theorem of_edges_eq (h : after.edges = g.edges) : g.Extends after :=
  ⟨[], by rw [h, List.append_nil], List.nodup_nil, by simp⟩

theorem trans (hfirst : g.Extends middle) (hsecond : middle.Extends after) : g.Extends after := by
  obtain ⟨added, hedges, hnodup, hnew⟩ := hfirst
  obtain ⟨more, hedges', hnodup', hnew'⟩ := hsecond
  rw [hedges] at hnew'
  refine ⟨added ++ more, by rw [hedges', hedges, List.append_assoc], ?_, ?_⟩
  · refine List.nodup_append.mpr ⟨hnodup, hnodup', ?_⟩
    intro e he e' he' heq
    subst heq
    exact hnew' e he' (List.mem_append_right _ he)
  · intro e he
    rcases List.mem_append.mp he with he | he
    · exact hnew e he
    · exact fun hold => hnew' e he (List.mem_append_left _ hold)

theorem insertNode (g : CallGraph) (node : GraphNode) : g.Extends (g.insertNode node) :=
  of_edges_eq (edges_insertNode g node)

theorem setLayer (g : CallGraph) (s : Signature) (layer : Layer) :
    g.Extends (g.setLayer s layer) :=
  of_edges_eq (edges_setLayer g s layer)

theorem link (g : CallGraph) (u v : Signature) : g.Extends (g.link u v) := by
  have hedges := edges_link g u v
  split at hedges
  · exact of_edges_eq hedges
  · rename_i hnew
    refine ⟨[⟨u, v⟩], hedges, List.nodup_singleton _, ?_⟩
    intro e he
    rw [List.mem_singleton.mp he, ← hasEdge_iff]
    exact hnew

theorem changes (g : CallGraph) (changes : List Change) :
    g.Extends (changes.foldl change g) := by
  induction changes generalizing g with
  | nil => exact of_edges_eq rfl
  | cons c rest ih =>
      refine Extends.trans ?_ (ih (g.change c))
      cases c with
      | insertNode node => exact insertNode g node
      | addEdge caller callee => exact link g caller callee
      | setLayer s layer => exact setLayer g s layer

theorem isPrefix_edges (h : g.Extends after) : g.edges <+: after.edges := by
  obtain ⟨added, hedges, -, -⟩ := h
  exact ⟨added, hedges.symm⟩

/-- What was added is told by the edges alone, so that two extensions of a graph with the same edges
have added the same, if in another order. -/
theorem perm (h : g.Extends after) (hother : g.Extends other)
    (hedges : ∀ u v, after.hasEdge u v = true ↔ other.hasEdge u v = true) :
    after.edges.Perm other.edges := by
  obtain ⟨added, heq, hnodup, hnew⟩ := h
  obtain ⟨added', heq', hnodup', hnew'⟩ := hother
  have hmem : ∀ e, e ∈ added ↔ e ∈ added' := by
    intro e
    have hsame := hedges e.caller e.callee
    rw [hasEdge_iff, hasEdge_iff, heq, heq', List.mem_append, List.mem_append] at hsame
    constructor
    · intro he
      exact (hsame.mp (.inr he)).resolve_left (hnew e he)
    · intro he
      exact (hsame.mpr (.inr he)).resolve_left (hnew' e he)
  rw [heq, heq']
  exact ((List.perm_ext_iff_of_nodup hnodup hnodup').mpr hmem).append_left g.edges

end Extends

theorem isPrefix_nodes_addEdges {g : CallGraph} {changes : List Change}
    (hchanges : ∀ c ∈ changes, ∃ u v, c = .addEdge u v) :
    g.nodes <+: (changes.foldl change g).nodes := by
  induction changes generalizing g with
  | nil => exact List.prefix_rfl
  | cons c rest ih =>
      obtain ⟨⟨u, v, rfl⟩, hrest⟩ := List.forall_mem_cons.mp hchanges
      have hstep : g.nodes <+: (g.link u v).nodes := by
        rw [nodes_link]
        exact (isPrefix_nodes_insertNode g _).trans (isPrefix_nodes_insertNode _ _)
      exact hstep.trans (ih hrest)

theorem link_eq_self {g : CallGraph} {u v : Signature} (hu : g.hasNode u = true)
    (hv : g.hasNode v = true) (hedge : g.hasEdge u v = true) : g.link u v = g := by
  have hsource : g.ensureNode u = g := insertNode_eq_self hu
  have htarget : g.ensureNode v = g := insertNode_eq_self hv
  obtain ⟨arc, hends, hadd⟩ := g.addEdge_eq u v
  rw [hsource, htarget] at hends hadd
  have harc : g.arcs.contains arc = true := by simpa using (mem_arcs_iff hends).mpr hedge
  rw [if_pos harc] at hadd
  exact toGraphStore_inj (congrArg Prod.snd hadd)

theorem changes_eq_self {g : CallGraph} {changes : List Change}
    (h : ∀ c ∈ changes, ∃ u v, c = .addEdge u v ∧ g.hasNode u = true ∧ g.hasNode v = true ∧
      g.hasEdge u v = true) : changes.foldl change g = g := by
  induction changes with
  | nil => rfl
  | cons c rest ih =>
      obtain ⟨⟨u, v, rfl, hu, hv, hedge⟩, hrest⟩ := List.forall_mem_cons.mp h
      rw [List.foldl_cons, change, link_eq_self hu hv hedge]
      exact ih hrest

/-- A run of added edges, made once more, finds all of them there. -/
theorem changes_changes {g : CallGraph} {changes : List Change}
    (hchanges : ∀ c ∈ changes, ∃ u v, c = .addEdge u v) :
    changes.foldl change (changes.foldl change g) = changes.foldl change g := by
  apply changes_eq_self
  intro c hc
  obtain ⟨u, v, rfl⟩ := hchanges c hc
  exact ⟨u, v, rfl, hasNode_changes.mpr (.inr ⟨_, hc, .inl rfl⟩),
    hasNode_changes.mpr (.inr ⟨_, hc, .inr rfl⟩), hasEdge_changes.mpr (.inr hc)⟩

end CallTrace.CallGraph
