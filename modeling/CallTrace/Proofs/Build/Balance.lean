import CallTrace.Proofs.Build.Content
import CallTrace.Proofs.Dispatch.Calls

/-!
The counts of a build. Each pass counts what it does while the graph drops what it has already; so
every count is told by the code: calls by how they were written, nodes and edges by the distinct
signatures and pairs that the passes come by, and the edges of dispatch as those that remain.
-/

namespace CallTrace

namespace Codebase

def writtenCalls (code : Codebase) : List String :=
  (code.classes.filter fun c => !Text.isBlank c.name).flatMap fun c =>
    (c.methods.filter fun m => !Text.isBlank m.name).flatMap fun m => m.calls

def directPairs (code : Codebase) : List CallEdge :=
  code.callSites.map fun site => ⟨site.caller, site.resolution.signature⟩

def dispatchTargets (code : Codebase) : List Signature :=
  code.callSites.flatMap fun site =>
    match site.resolution with
    | .resolved owner method => (Hierarchy.ofCodebase code).targets owner method
    | .heuristic _ => []

def mentioned (code : Codebase) (entries : List EntryPoint) : List Signature :=
  (code.declaredMethods.map fun (c, m) => Signature.join c.name m.name) ++
    (code.callSites.map fun site => site.resolution.signature) ++
    code.dispatchTargets ++ entries.map fun entry => entry.signature

def callReport (code : Codebase) : DispatchReport :=
  ((Hierarchy.ofCodebase code).expandCalls (Build.directGraph code) code.callSites).2

theorem writtenCalls_eq (code : Codebase) :
    code.writtenCalls = code.declaredMethods.flatMap fun decl => decl.2.calls := by
  rw [declaredMethods, List.flatMap_assoc]
  simp only [List.flatMap_map]
  rfl

/-- A call is skipped just if nothing is left of its text. -/
theorem map_isNone_rawCalls (code : Codebase) :
    code.rawCalls.map (fun call => call.resolution.isNone) =
      code.writtenCalls.map fun raw => (CallText.parse raw).text == "" := by
  have hskipped : ∀ scope raw, (code.resolve scope raw).isNone =
      ((CallText.parse raw).text == "") := by
    intro scope raw
    rw [Bool.eq_iff_iff, Option.isNone_iff_eq_none, resolve_eq_none_iff, beq_iff_eq]
  rw [writtenCalls_eq, rawCalls, List.map_flatMap, List.map_flatMap]
  simp only [callsOf, List.map_map, Function.comp_def, hskipped]

theorem length_rawCalls (code : Codebase) : code.rawCalls.length = code.writtenCalls.length := by
  simpa using congrArg List.length code.map_isNone_rawCalls

theorem countP_skippedCalls (code : Codebase) :
    (code.rawCalls.countP fun call => call.resolution.isNone) =
      code.writtenCalls.countP fun raw => (CallText.parse raw).text == "" := by
  have hcount := congrArg (List.countP id) code.map_isNone_rawCalls
  rw [List.countP_map, List.countP_map] at hcount
  exact hcount

theorem misses_callReport_le (code : Codebase) :
    code.callReport.misses ≤ code.callReport.interfaceCalls := by
  rw [callReport, Hierarchy.report_expandCalls]
  apply List.countP_mono_left
  intro site _ hmisses
  exact (Bool.and_eq_true_iff.mp hmisses).1

theorem interfaceCalls_callReport_le (code : Codebase) :
    code.callReport.interfaceCalls ≤
      code.callSites.countP fun site => site.resolution.owner?.isSome := by
  rw [callReport, Hierarchy.report_expandCalls]
  apply List.countP_mono_left
  intro site _ hcalls
  obtain ⟨caller, resolution⟩ := site
  cases resolution with
  | resolved owner method => rfl
  | heuristic expression => cases hcalls

theorem dispatch_analyse (code : Codebase) (classifier : Option Classifier) (keep : Bool) :
    (code.analyse classifier keep).summary.dispatch =
      { code.callReport with
        expandedEntryPoints := code.callReport.expandedEntryPoints +
          ((code.toldEntryPoints classifier).flatMap fun entry =>
            (Hierarchy.ofCodebase code).targets entry.className entry.method).length
        misses := code.callReport.misses +
          (code.toldEntryPoints classifier).countP (Hierarchy.ofCodebase code).missesEntry } := by
  rw [report_analyse]
  exact (Hierarchy.ofCodebase code).expandEntryPoints_report keep (code.toldEntryPoints classifier)
    code.callReport

theorem mem_directPairs {code : Codebase} {e : CallEdge} :
    e ∈ code.directPairs ↔ code.DirectCall e.caller e.callee := by
  rw [directPairs, List.mem_map]
  constructor
  · intro hpair
    obtain ⟨site, hsite, rfl⟩ := hpair
    exact ⟨site.resolution, mem_callSites.mp hsite, rfl⟩
  · intro hcall
    obtain ⟨resolution, hcalls, hcallee⟩ := hcall
    exact ⟨⟨e.caller, resolution⟩, mem_callSites.mpr hcalls, by rw [← hcallee]⟩

theorem length_edges_directGraph (code : Codebase) :
    (Build.directGraph code).edges.length = code.directPairs.eraseDups.length := by
  refine length_eraseDups_eq code.wellFormed_directGraph.edges_nodup ?_
  intro e
  rw [mem_directPairs, ← hasEdge_directGraph, CallGraph.hasEdge_iff]

theorem length_edges_callGraph (code : Codebase) :
    code.callGraph.edges.length =
      code.directPairs.eraseDups.length + code.callReport.expandedEdges := by
  obtain ⟨grown, hlength, hreport⟩ := (Hierarchy.ofCodebase code).expandCalls_report
    (Build.directGraph code) code.callSites
  rw [callGraph, hlength, length_edges_directGraph, callReport, hreport]

theorem edges_analyse (code : Codebase) (classifier : Option Classifier) (keep : Bool) :
    (code.analyse classifier keep).graph.edges = code.callGraph.edges := by
  rw [graph_analyse, CallGraph.edges_mapNodes, CallGraph.edges_insertNodes]

theorem mem_dispatchTargets {code : Codebase} {s : Signature} :
    s ∈ code.dispatchTargets ↔ ∃ u, code.DispatchedCall u s := by
  rw [dispatchTargets, List.mem_flatMap]
  constructor
  · intro hmem
    obtain ⟨⟨caller, resolution⟩, hsite, htarget⟩ := hmem
    cases resolution with
    | resolved owner method => exact ⟨caller, owner, method, mem_callSites.mp hsite, htarget⟩
    | heuristic expression => exact absurd htarget List.not_mem_nil
  · intro hdispatched
    obtain ⟨u, owner, method, hcalls, htarget⟩ := hdispatched
    exact ⟨⟨u, .resolved owner method⟩, mem_callSites.mpr hcalls, htarget⟩

theorem mem_mentioned {code : Codebase} {entries : List EntryPoint} {s : Signature} :
    s ∈ code.mentioned entries ↔
      ((∃ c m, code.Declares c m ∧ s = Signature.join c.name m.name) ∨
        (∃ u, code.DirectCall u s) ∨ ∃ u, code.DispatchedCall u s) ∨
      EntryPoint.Names entries s := by
  have hdeclared : (s ∈ code.declaredMethods.map fun (c, m) => Signature.join c.name m.name) ↔
      ∃ c m, code.Declares c m ∧ s = Signature.join c.name m.name := by
    simp only [List.mem_map, Prod.exists, mem_declaredMethods, eq_comm]
  have hcallees : (s ∈ code.callSites.map fun site => site.resolution.signature) ↔
      ∃ u, code.DirectCall u s := by
    rw [List.mem_map]
    constructor
    · intro hcallee
      obtain ⟨site, hsite, rfl⟩ := hcallee
      exact ⟨site.caller, site.resolution, mem_callSites.mp hsite, rfl⟩
    · intro hdirect
      obtain ⟨u, resolution, hcalls, rfl⟩ := hdirect
      exact ⟨⟨u, resolution⟩, mem_callSites.mpr hcalls, rfl⟩
  rw [mentioned, List.mem_append, List.mem_append, List.mem_append, hdeclared, hcallees,
    mem_dispatchTargets, or_assoc (b := ∃ u, code.DirectCall u s), List.mem_map]
  rfl

theorem exists_declares_of_hasEdge {code : Codebase} {u v : Signature}
    (hedge : code.callGraph.hasEdge u v = true) :
    ∃ c m, code.Declares c m ∧ u = Signature.join c.name m.name := by
  have hcalls : ∃ resolution, code.Calls u resolution := by
    rcases hasEdge_callGraph.mp hedge with ⟨resolution, hcalls, -⟩ | ⟨owner, method, hcalls, -⟩
    · exact ⟨resolution, hcalls⟩
    · exact ⟨.resolved owner method, hcalls⟩
  obtain ⟨resolution, c, m, hdeclares, hcaller, -⟩ := hcalls
  exact ⟨c, m, hdeclares, hcaller⟩

theorem hasNode_callGraph_iff_mentioned {code : Codebase} {s : Signature} :
    code.callGraph.hasNode s = true ↔
      (∃ c m, code.Declares c m ∧ s = Signature.join c.name m.name) ∨
        (∃ u, code.DirectCall u s) ∨ ∃ u, code.DispatchedCall u s := by
  rw [hasNode_callGraph]
  constructor
  · intro hnode
    rcases hnode with hdeclared | ⟨t, hcaller | hcallee⟩
    · exact .inl hdeclared
    · exact .inl (exists_declares_of_hasEdge hcaller)
    · rcases hasEdge_callGraph.mp hcallee with hdirect | hdispatched
      · exact .inr (.inl ⟨t, hdirect⟩)
      · exact .inr (.inr ⟨t, hdispatched⟩)
  · intro hmentioned
    rcases hmentioned with hdeclared | ⟨u, hdirect⟩ | ⟨u, hdispatched⟩
    · exact .inl hdeclared
    · exact .inr ⟨u, .inr (hasEdge_callGraph.mpr (.inl hdirect))⟩
    · exact .inr ⟨u, .inr (hasEdge_callGraph.mpr (.inr hdispatched))⟩

theorem length_nodes_analyse (code : Codebase) (classifier : Option Classifier) (keep : Bool) :
    (code.analyse classifier keep).graph.nodes.length =
      (code.mentioned (code.analyse classifier keep).entryPoints).eraseDups.length := by
  have hnodes := (code.wellFormed_analyse classifier keep).nodes_nodup
  rw [← length_eraseDups_eq hnodes, List.length_map]
  intro s
  rw [mem_mentioned, ← hasNode_callGraph_iff_mentioned, ← hasNode_analyse, CallGraph.hasNode_iff,
    List.mem_map]

/-- How the counts of a summary hang together, for code whose classifier told these entry points. -/
structure Balances (code : Codebase) (told : List EntryPoint) (a : Analysis) : Prop where
  calls_eq : a.summary.resolvedCalls + a.summary.heuristicCalls + a.summary.skippedCalls =
    code.writtenCalls.length
  skippedCalls_eq : a.summary.skippedCalls =
    code.writtenCalls.countP fun raw => (CallText.parse raw).text == ""
  edges_eq : a.summary.edges = a.graph.edges.length
  edges_split : a.summary.edges =
    code.directPairs.eraseDups.length + a.summary.dispatch.expandedEdges
  /-- Misses of entry points are counted behind those of calls. -/
  misses_split : a.summary.dispatch.misses =
    code.callReport.misses + told.countP (Hierarchy.ofCodebase code).missesEntry
  callMisses_le : code.callReport.misses ≤ a.summary.dispatch.interfaceCalls
  interfaceCalls_le : a.summary.dispatch.interfaceCalls ≤ a.summary.resolvedCalls
  classes_eq : a.summary.classes = code.classes.length
  classes_split : a.summary.skippedClasses +
    (code.classes.filter fun c => !Text.isBlank c.name).length = a.summary.classes
  nodes_eq : a.summary.nodes = a.graph.nodes.length
  nodes_distinct : a.summary.nodes = (code.mentioned a.entryPoints).eraseDups.length

/-- The counts of a build balance: every call that is written is resolved, kept by its text or
skipped, every class is named or skipped, and the nodes and edges are as many as the distinct
signatures and pairs that the passes come by. -/
theorem summary_balances (code : Codebase) (classifier : Option Classifier) (keep : Bool) :
    code.Balances (code.toldEntryPoints classifier) (code.analyse classifier keep) := by
  have htook := Build.took_wire code (.ofCodebase code)
  exact
    { calls_eq := htook.balance.trans code.length_rawCalls
      skippedCalls_eq := htook.skipped.trans code.countP_skippedCalls
      edges_eq := (CallGraph.length_edges _).symm
      edges_split := by
        rw [dispatch_analyse, ← length_edges_callGraph, ← code.edges_analyse classifier keep]
        exact (CallGraph.length_edges _).symm
      misses_split := by rw [dispatch_analyse]
      callMisses_le := by
        rw [dispatch_analyse]
        exact code.misses_callReport_le
      interfaceCalls_le := by
        rw [dispatch_analyse]
        refine code.interfaceCalls_callReport_le.trans_eq ?_
        rw [← Build.sites_wire code (.ofCodebase code)]
        exact htook.resolved.symm
      classes_eq := Build.classes_wire code _
      classes_split := (Build.skippedClasses_wire code _).trans (Build.classes_wire code _).symm
      nodes_eq := rfl
      nodes_distinct := code.length_nodes_analyse classifier keep }

example :
    let save : List MethodDecl := [{ name := "save" }]
    let calls := ["jpa.save(x)", "repo.save(x)", "repo.save(y)", "repo.drop()", "log.info()", "()"]
    let code : Codebase :=
      { classes :=
          [{ name := "Repo", isInterface := true, methods := save },
           { name := "JpaRepo", interfaces := ["Repo"], methods := save },
           { name := "MemoryRepo", interfaces := ["Repo"], methods := save },
           { name := " ", methods := save },
           { name := "Importer", fields := [⟨"repo", "Repo"⟩, ⟨"jpa", "JpaRepo"⟩],
             methods := [{ name := "run", calls }] }] }
    (code.analyse none false).summary =
      { classes := 5, methods := 5, nodes := 6, edges := 5, resolvedCalls := 4,
        heuristicCalls := 1, skippedCalls := 1, skippedClasses := 1,
        dispatch := { interfaceCalls := 3, expandedEdges := 1, misses := 1 } } := by
  decide +kernel

end Codebase

end CallTrace
