import CallTrace.Dispatch
import CallTrace.Proofs.CallGraph.Runs

/-!
The expansion of calls as a run of operations: one edge for each implementation that a call may run.
Its report counts the calls of interfaces, those without an implementation, and the edges by which
the graph has grown.
-/

namespace CallTrace

open CallGraph

theorem CallGraph.length_edges_addEdge (g : CallGraph) (u v : Signature) :
    (g.addEdge u v).2.edges.length = g.edges.length + (g.addEdge u v).1.toNat := by
  rw [addEdge_isNew, ← link, edges_link]
  cases g.hasEdge u v <;> simp

namespace Hierarchy

def expansion (h : Hierarchy) (site : CallSite) : List Change :=
  match site.resolution with
  | .resolved owner method => (h.targets owner method).map (.addEdge site.caller)
  | .heuristic _ => []

theorem linkTargets_graph (caller : Signature) (targets : List Signature) (g : CallGraph)
    (report : DispatchReport) :
    (linkTargets caller targets (g, report)).1 =
      (targets.map (.addEdge caller)).foldl change g := by
  induction targets generalizing g report with
  | nil => rfl
  | cons target rest ih =>
      rw [linkTargets, List.map_cons, List.foldl_cons, change, link]
      split <;> rename_i heq <;> rw [heq, ih]

theorem expandCall_graph (h : Hierarchy) (state : CallGraph × DispatchReport) (site : CallSite) :
    (h.expandCall state site).1 = (h.expansion site).foldl change state.1 := by
  obtain ⟨caller, resolution⟩ := site
  cases resolution with
  | heuristic expression => rfl
  | resolved owner method =>
      unfold expandCall expansion
      dsimp only
      split
      · split
        · rename_i hnone
          simp [hnone]
        · exact linkTargets_graph caller (h.targets owner method) ..
      · rename_i hclass
        simp [targets, hclass]

theorem expandCalls_graph (h : Hierarchy) (g : CallGraph) (sites : List CallSite) :
    (h.expandCalls g sites).1 = (sites.flatMap h.expansion).foldl change g := by
  unfold expandCalls
  induction sites using List.reverseRecOn with
  | nil => rfl
  | append_singleton sites site ih =>
      rw [List.foldl_concat, expandCall_graph, ih, List.flatMap_append, List.foldl_append,
        List.flatMap_singleton]

def callsInterface (h : Hierarchy) (site : CallSite) : Bool :=
  match site.resolution with
  | .resolved owner _ => h.isInterface owner
  | .heuristic _ => false

/-- The call is one of an interface that no class implements with the method. -/
def misses (h : Hierarchy) (site : CallSite) : Bool :=
  h.callsInterface site && (h.expansion site).isEmpty

theorem linkTargets_report (caller : Signature) (targets : List Signature) (g : CallGraph)
    (report : DispatchReport) :
    ∃ grown, (linkTargets caller targets (g, report)).1.edges.length = g.edges.length + grown ∧
      (linkTargets caller targets (g, report)).2 =
        { report with expandedEdges := report.expandedEdges + grown } := by
  induction targets generalizing g report with
  | nil => exact ⟨0, rfl, rfl⟩
  | cons target rest ih =>
      have hedges := g.length_edges_addEdge caller target
      rw [linkTargets]
      split <;> rename_i next heq <;> rw [heq] at hedges
      · obtain ⟨grown, hlength, hreport⟩ :=
          ih next { report with expandedEdges := report.expandedEdges + 1 }
        refine ⟨1 + grown, ?_, ?_⟩
        · rw [hlength, hedges, Nat.add_assoc]
          rfl
        · rw [hreport]
          simp only [Nat.add_assoc]
      · obtain ⟨grown, hlength, hreport⟩ := ih next report
        exact ⟨grown, by rw [hlength, hedges]; rfl, hreport⟩

theorem expandCall_report (h : Hierarchy) (state : CallGraph × DispatchReport)
    (site : CallSite) :
    ∃ grown, (h.expandCall state site).1.edges.length = state.1.edges.length + grown ∧
      (h.expandCall state site).2 =
        { state.2 with
          interfaceCalls := state.2.interfaceCalls + (h.callsInterface site).toNat
          expandedEdges := state.2.expandedEdges + grown
          misses := state.2.misses + (h.misses site).toNat } := by
  obtain ⟨caller, resolution⟩ := site
  cases resolution with
  | heuristic expression => exact ⟨0, rfl, rfl⟩
  | resolved owner method =>
      cases hinterface : h.isInterface owner with
      | false => exact ⟨0, by simp [expandCall, misses, callsInterface, hinterface]⟩
      | true =>
          cases htargets : h.targets owner method with
          | nil =>
              exact ⟨0, by
                simp [expandCall, misses, callsInterface, expansion, hinterface, htargets]⟩
          | cons target rest =>
              obtain ⟨grown, hlength, hreport⟩ := linkTargets_report caller (target :: rest) state.1
                { state.2 with interfaceCalls := state.2.interfaceCalls + 1 }
              refine ⟨grown, ?_, ?_⟩
              · simpa [expandCall, hinterface, htargets] using hlength
              · simpa [expandCall, misses, callsInterface, expansion, hinterface, htargets]
                  using hreport

/-- The report of an expansion, told by the calls and by the growth of the graph. -/
theorem expandCalls_report (h : Hierarchy) (g : CallGraph) (sites : List CallSite) :
    ∃ grown, (h.expandCalls g sites).1.edges.length = g.edges.length + grown ∧
      (h.expandCalls g sites).2 =
        { interfaceCalls := sites.countP h.callsInterface
          expandedEdges := grown
          misses := sites.countP h.misses } := by
  unfold expandCalls
  induction sites using List.reverseRecOn with
  | nil => exact ⟨0, rfl, rfl⟩
  | append_singleton sites site ih =>
      obtain ⟨before, hbefore, hreport⟩ := ih
      rw [List.foldl_concat]
      obtain ⟨grown, hlength, hstep⟩ := h.expandCall_report (sites.foldl h.expandCall (g, {})) site
      refine ⟨before + grown, by rw [hlength, hbefore, Nat.add_assoc], ?_⟩
      rw [hstep, hreport, List.countP_append, List.countP_append, List.countP_singleton,
        List.countP_singleton]
      cases h.callsInterface site <;> cases h.misses site <;> rfl

end Hierarchy

end CallTrace
