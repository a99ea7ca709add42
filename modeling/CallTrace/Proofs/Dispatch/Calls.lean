import CallTrace.Proofs.Build.Metadata
import CallTrace.Proofs.CallGraph.Growth
import CallTrace.Proofs.Hierarchy.Targets

/-!
What the expansion of calls makes of a graph. It adds an edge from the caller to each implementation
that a call may run, and nothing else; the order of the calls makes no difference to the edges and
to the report, and a second expansion finds everything there.
-/

namespace CallTrace

open CallGraph

namespace Hierarchy

def Dispatches (h : Hierarchy) (sites : List CallSite) (u v : Signature) : Prop :=
  ∃ owner method, ⟨u, .resolved owner method⟩ ∈ sites ∧ h.isInterface owner = true ∧
    v ∈ h.targets owner method

/-- What an expansion of calls makes of a graph, and what it reports. -/
structure Expands (h : Hierarchy) (sites : List CallSite) (g after : CallGraph)
    (report : DispatchReport) : Prop where
  nodes_kept : g.nodes <+: after.nodes
  edges_kept : g.edges <+: after.edges
  /-- A node that is new is the end of an edge, of which nothing else is known. -/
  nodes_new : ∀ n ∈ after.nodes, n ∈ g.nodes ∨ n = .unknown n.signature
  hasNode_iff : ∀ s, after.hasNode s = true ↔
    g.hasNode s = true ∨ ∃ u v, h.Dispatches sites u v ∧ (u = s ∨ v = s)
  hasEdge_iff : ∀ u v, after.hasEdge u v = true ↔
    g.hasEdge u v = true ∨ h.Dispatches sites u v
  interfaceCalls_eq : report.interfaceCalls = sites.countP h.callsInterface
  misses_eq : report.misses = sites.countP h.misses
  expandedEdges_eq : report.expandedEdges = after.edges.length - g.edges.length

variable {h : Hierarchy} {g : CallGraph} {sites : List CallSite}

theorem addEdge_mem_expansions {u v : Signature} :
    .addEdge u v ∈ sites.flatMap h.expansion ↔ h.Dispatches sites u v := by
  rw [List.mem_flatMap]
  constructor
  · intro hadded
    obtain ⟨⟨caller, resolution⟩, hsite, hmem⟩ := hadded
    cases resolution with
    | heuristic expression => cases hmem
    | resolved owner method =>
        obtain ⟨target, htarget, heq⟩ := List.mem_map.mp hmem
        cases heq
        exact ⟨owner, method, hsite, (mem_targets.mp htarget).1, htarget⟩
  · intro hdispatches
    obtain ⟨owner, method, hsite, -, htarget⟩ := hdispatches
    exact ⟨_, hsite, List.mem_map_of_mem htarget⟩

theorem mentions_expansions {s : Signature} :
    (∃ c ∈ sites.flatMap h.expansion, c.Mentions s) ↔
      ∃ u v, h.Dispatches sites u v ∧ (u = s ∨ v = s) := by
  constructor
  · intro hmentioned
    obtain ⟨c, hc, hmentions⟩ := hmentioned
    obtain ⟨u, v, rfl⟩ := eq_addEdge_of_mem_expansion hc
    exact ⟨u, v, addEdge_mem_expansions.mp hc, hmentions⟩
  · intro hend
    obtain ⟨u, v, hdispatches, hends⟩ := hend
    exact ⟨_, addEdge_mem_expansions.mpr hdispatches, hends⟩

theorem hasEdge_expandCalls {u v : Signature} :
    (h.expandCalls g sites).1.hasEdge u v = true ↔
      g.hasEdge u v = true ∨ h.Dispatches sites u v := by
  rw [expandCalls_graph, hasEdge_changes, addEdge_mem_expansions]

theorem extends_expandCalls (h : Hierarchy) (g : CallGraph) (sites : List CallSite) :
    g.Extends (h.expandCalls g sites).1 := by
  rw [expandCalls_graph]
  exact .changes g _

theorem report_expandCalls (h : Hierarchy) (g : CallGraph) (sites : List CallSite) :
    (h.expandCalls g sites).2 =
      { interfaceCalls := sites.countP h.callsInterface
        expandedEdges := (h.expandCalls g sites).1.edges.length - g.edges.length
        misses := sites.countP h.misses } := by
  obtain ⟨grown, hlength, hreport⟩ := h.expandCalls_report g sites
  rw [hreport, hlength, Nat.add_sub_cancel_left]

theorem expands_expandCalls (h : Hierarchy) (g : CallGraph) (sites : List CallSite) :
    h.Expands sites g (h.expandCalls g sites).1 (h.expandCalls g sites).2 where
  nodes_kept := by
    rw [expandCalls_graph]
    exact isPrefix_nodes_addEdges fun _ => eq_addEdge_of_mem_expansion
  edges_kept := (h.extends_expandCalls g sites).isPrefix_edges
  nodes_new := by
    rw [expandCalls_graph]
    exact AllNodes.addEdges (fun _ => eq_addEdge_of_mem_expansion) (fun _ => .inr rfl)
      (fun _ hn => .inl hn)
  hasNode_iff s := by
    rw [expandCalls_graph, hasNode_changes, mentions_expansions]
  hasEdge_iff u v := hasEdge_expandCalls
  interfaceCalls_eq := by rw [report_expandCalls]
  misses_eq := by rw [report_expandCalls]
  expandedEdges_eq := by rw [report_expandCalls]

theorem Dispatches.of_perm {sites' : List CallSite} (hperm : sites.Perm sites')
    {u v : Signature} (hdispatches : h.Dispatches sites u v) : h.Dispatches sites' u v := by
  obtain ⟨owner, method, hsite, htarget⟩ := hdispatches
  exact ⟨owner, method, hperm.mem_iff.mp hsite, htarget⟩

theorem hasEdge_expandCalls_perm {sites' : List CallSite} (hperm : sites.Perm sites')
    (u v : Signature) :
    (h.expandCalls g sites').1.hasEdge u v = true ↔
      (h.expandCalls g sites).1.hasEdge u v = true := by
  rw [hasEdge_expandCalls, hasEdge_expandCalls]
  exact or_congr_right ⟨.of_perm hperm.symm, .of_perm hperm⟩

theorem report_expandCalls_perm {sites' : List CallSite} (hperm : sites.Perm sites') :
    (h.expandCalls g sites').2 = (h.expandCalls g sites).2 := by
  have hedges := (h.extends_expandCalls g sites').perm (h.extends_expandCalls g sites)
    (hasEdge_expandCalls_perm hperm)
  rw [report_expandCalls, report_expandCalls, hedges.length_eq, hperm.countP_eq, hperm.countP_eq]

theorem expandCalls_again (h : Hierarchy) (g : CallGraph) (sites : List CallSite) :
    h.expandCalls (h.expandCalls g sites).1 sites =
      ((h.expandCalls g sites).1, { (h.expandCalls g sites).2 with expandedEdges := 0 }) := by
  have hgraph : (h.expandCalls (h.expandCalls g sites).1 sites).1 = (h.expandCalls g sites).1 := by
    rw [expandCalls_graph, expandCalls_graph]
    exact changes_changes fun _ => eq_addEdge_of_mem_expansion
  refine Prod.ext hgraph ?_
  rw [report_expandCalls, hgraph, Nat.sub_self, report_expandCalls h g]

/-- The expansion of calls keeps what a graph holds and adds the edges to implementations, all
counted in its report. Neither the edges nor the report depend on the order of the calls, and a
second expansion changes nothing. -/
theorem expansion_of_calls (h : Hierarchy) (g : CallGraph) (sites : List CallSite) :
    h.Expands sites g (h.expandCalls g sites).1 (h.expandCalls g sites).2 ∧
    (∀ sites', sites.Perm sites' →
      (∀ u v, (h.expandCalls g sites').1.hasEdge u v = true ↔
        (h.expandCalls g sites).1.hasEdge u v = true) ∧
      (h.expandCalls g sites').2 = (h.expandCalls g sites).2) ∧
    h.expandCalls (h.expandCalls g sites).1 sites =
      ((h.expandCalls g sites).1, { (h.expandCalls g sites).2 with expandedEdges := 0 }) :=
  ⟨h.expands_expandCalls g sites,
    fun _ hperm => ⟨hasEdge_expandCalls_perm hperm, report_expandCalls_perm hperm⟩,
    h.expandCalls_again g sites⟩

end Hierarchy

open Hierarchy

def repoCalls : List CallSite :=
  [⟨"JpaRepo.find", .resolved "Repo" "find"⟩, ⟨"Importer.run", .resolved "Repo" "save"⟩,
    ⟨"Importer.run", .heuristic "repo.find"⟩]

theorem expansion_of_calls_repos :
    repoCalls.Perm repoCalls.reverse ∧
      ((ofCodebase twoRepos).expandCalls .empty repoCalls.reverse).2 =
        ((ofCodebase twoRepos).expandCalls .empty repoCalls).2 ∧
      ((ofCodebase twoRepos).expandCalls .empty repoCalls).1.hasEdge "JpaRepo.find"
        "JpaRepo.find" = true ∧
      ((ofCodebase twoRepos).expandCalls .empty repoCalls).2 =
        { interfaceCalls := 2, expandedEdges := 1, misses := 1 } := by
  have hperm : repoCalls.Perm repoCalls.reverse := (List.reverse_perm repoCalls).symm
  obtain ⟨hexpands, horder, -⟩ := expansion_of_calls (ofCodebase twoRepos) .empty repoCalls
  refine ⟨hperm, (horder _ hperm).2, (hexpands.hasEdge_iff _ _).mpr (.inr ?_), by decide +kernel⟩
  exact ⟨"Repo", "find", by decide, by decide +kernel, by decide +kernel⟩

end CallTrace
