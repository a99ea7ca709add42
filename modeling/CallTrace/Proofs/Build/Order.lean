import CallTrace.Proofs.Analysis.Trees
import CallTrace.Proofs.Build.Metadata
import CallTrace.Proofs.CallGraph.Agreement
import CallTrace.Proofs.Codebase.Reordering
import CallTrace.Proofs.Hierarchy.Targets

/-!
A build does not depend on the order of the code. Where no two classes share a name, the hierarchies
of the two orders tell the same of every name, so dispatch reaches the same implementations and
counts the same; the graphs agree, and so do all answers.
-/

namespace CallTrace

theorem CallGraph.WellFormed.length_edges_eq {g h : CallGraph} (hg : g.WellFormed)
    (hh : h.WellFormed) (hedges : ∀ u v, g.hasEdge u v = true ↔ h.hasEdge u v = true) :
    g.edges.length = h.edges.length := by
  have hlength := congrArg List.length ((hg.sortedEdges_eq_iff hh).mpr hedges)
  simpa [GraphStore.sortedEdges] using hlength

theorem Analysis.tree_refused {a : Analysis} {depth : Nat} (hdepth : maxTreeDepth < depth)
    (s : Signature) : a.tree s depth = .error (.depthTooGreat depth) := by
  have hrefused : checkDepth depth = .error (.depthTooGreat depth) := if_pos hdepth
  rw [tree, hrefused]
  rfl

namespace Codebase

open Hierarchy

variable {code other : Codebase}

theorem Reorders.exists_class_iff (h : code.Reorders other) {P : ClassDecl → Prop}
    (hstep : ∀ c d, c.Reorders d → P c → P d) :
    (∃ c ∈ code.classes, P c) ↔ ∃ d ∈ other.classes, P d :=
  Reordered.exists_iff (fun _ _ => ClassDecl.Reorders.symm) h hstep

theorem Reorders.exists_declares_iff (h : code.Reorders other) {s : Signature} :
    (∃ c m, code.Declares c m ∧ s = Signature.join c.name m.name) ↔
      ∃ d k, other.Declares d k ∧ s = Signature.join d.name k.name := by
  have hnodes : ∀ code : Codebase, (∃ c m, code.Declares c m ∧ s = Signature.join c.name m.name) ↔
      ∃ decl ∈ code.declaredMethods, s = Signature.join decl.1.name decl.2.name := by
    intro code
    simp only [Prod.exists, mem_declaredMethods]
  rw [hnodes, hnodes]
  refine h.declaredMethods.exists_iff (fun _ _ hdecl => ⟨hdecl.1.symm, hdecl.2.symm⟩) ?_
  rintro first second ⟨hclass, hmethod⟩ rfl
  rw [hclass.name_eq, hmethod.name_eq]

section Distinct

variable (h : code.Reorders other) (hcode : code.Distinct)

include h hcode

theorem Reorders.isInterface_eq (name : String) :
    (ofCodebase code).isInterface name = (ofCodebase other).isInterface name := by
  have hrel := h.findSimple?_rel hcode name
  have hlisted := h.exists_class_iff (P := fun c => c.Implements name)
    fun c d hcd => hcd.implements_iff.mp
  have hknown := optionRel_exists_iff (P := fun c => c.isInterface = true)
    (Q := fun d => d.isInterface = true) (fun c d hcd => by rw [hcd.isInterface_eq]) hrel
  have hnone : code.findSimple? name = none ↔ other.findSimple? name = none := by
    rw [← Option.map_eq_none_iff (f := ClassDecl.name),
      optionRel_map_eq (fun c d hcd => hcd.name_eq) hrel, Option.map_eq_none_iff]
  rw [Bool.eq_iff_iff, isInterface_ofCodebase, isInterface_ofCodebase, hlisted, hknown, hnone]

theorem Reorders.looksFor_iff {interface key : String} :
    code.LooksFor interface key ↔ other.LooksFor interface key := by
  have hknown := optionRel_exists_iff (P := fun c => c.qualifiedName = key)
    (Q := fun d => d.qualifiedName = key) (fun c d hcd => by rw [hcd.qualifiedName_eq])
    (h.findSimple?_rel hcode (Text.afterLastDot interface))
  simp only [LooksFor, KnownAs, hknown]

theorem Reorders.mem_implementors_iff {interface name : String} :
    name ∈ (ofCodebase code).implementors interface ↔
      name ∈ (ofCodebase other).implementors interface := by
  simp only [mem_implementors, h.looksFor_iff hcode]
  apply h.exists_class_iff
  rintro c d hcd ⟨hname, key, hkey, himplements⟩
  exact ⟨hcd.name_eq.symm.trans hname, key, hkey, hcd.implements_iff.mp himplements⟩

theorem Reorders.declares_iff {name method : String} :
    (ofCodebase code).declares name method = true ↔
      (ofCodebase other).declares name method = true := by
  rw [declares_ofCodebase, declares_ofCodebase]
  refine and_congr_right fun _ => optionRel_exists_iff ?_ (h.findSimple?_rel hcode name)
  intro c d hcd
  rw [hcd.declares_eq]

theorem Reorders.mem_targets_iff {interface method : String} {s : Signature} :
    s ∈ (ofCodebase code).targets interface method ↔
      s ∈ (ofCodebase other).targets interface method := by
  simp only [mem_targets, h.isInterface_eq hcode, h.mem_implementors_iff hcode,
    h.declares_iff hcode]

theorem Reorders.targets_eq_nil_iff {interface method : String} :
    (ofCodebase code).targets interface method = [] ↔
      (ofCodebase other).targets interface method = [] := by
  simp only [List.eq_nil_iff_forall_not_mem, h.mem_targets_iff hcode]

theorem Reorders.callsInterface_eq :
    (ofCodebase code).callsInterface = (ofCodebase other).callsInterface := by
  funext site
  simp only [callsInterface, h.isInterface_eq hcode]

theorem Reorders.misses_eq : (ofCodebase code).misses = (ofCodebase other).misses := by
  funext site
  obtain ⟨caller, resolution⟩ := site
  rw [misses, misses, h.callsInterface_eq hcode]
  cases resolution with
  | heuristic expression => rfl
  | resolved owner method =>
      have hempty : ((ofCodebase code).targets owner method).isEmpty =
          ((ofCodebase other).targets owner method).isEmpty := by
        rw [Bool.eq_iff_iff, List.isEmpty_iff, List.isEmpty_iff, h.targets_eq_nil_iff hcode]
      simp only [expansion, List.isEmpty_map, hempty]

theorem Reorders.directCall_iff {u v : Signature} :
    code.DirectCall u v ↔ other.DirectCall u v := by
  simp only [DirectCall, h.calls_iff hcode]

theorem Reorders.dispatchedCall_iff {u v : Signature} :
    code.DispatchedCall u v ↔ other.DispatchedCall u v := by
  simp only [DispatchedCall, h.calls_iff hcode, h.mem_targets_iff hcode]

theorem Reorders.hasEdge_iff (u v : Signature) :
    code.callGraph.hasEdge u v = true ↔ other.callGraph.hasEdge u v = true := by
  rw [hasEdge_callGraph, hasEdge_callGraph, h.directCall_iff hcode, h.dispatchedCall_iff hcode]

theorem Reorders.hasNode_iff (s : Signature) :
    code.callGraph.hasNode s = true ↔ other.callGraph.hasNode s = true := by
  rw [hasNode_callGraph, hasNode_callGraph, h.exists_declares_iff]
  simp only [h.hasEdge_iff hcode]

omit h hcode in
theorem hasLayer_callGraph {code : Codebase} {s : Signature} {layer : Layer} :
    code.callGraph.HasLayer s layer ↔ code.callGraph.hasNode s = true ∧ layer = .unknown := by
  have hunknown : code.callGraph.AllNodes fun n => n.layer = .unknown := by
    refine allNodes_callGraph (fun _ _ => rfl) ?_ fun _ => rfl
    rintro ⟨caller, owner | expression⟩ - <;> rfl
  rw [CallGraph.hasNode_iff]
  constructor
  · rintro ⟨n, hn, hs, rfl⟩
    exact ⟨⟨n, hn, hs⟩, hunknown n hn⟩
  · rintro ⟨⟨n, hn, hs⟩, rfl⟩
    exact ⟨n, hn, hs, hunknown n hn⟩

theorem Reorders.agrees : code.callGraph.Agrees other.callGraph where
  hasLayer s layer := by rw [hasLayer_callGraph, hasLayer_callGraph, h.hasNode_iff hcode]
  hasEdge := h.hasEdge_iff hcode

/-- Both graphs of calls grow by as many edges, and the counts of calls do not see the order. -/
theorem Reorders.report_eq :
    ((ofCodebase code).expandCalls (Build.directGraph code) code.callSites).2 =
      ((ofCodebase other).expandCalls (Build.directGraph other) other.callSites).2 := by
  obtain ⟨grown, hlength, hreport⟩ :=
    expandCalls_report (ofCodebase code) (Build.directGraph code) code.callSites
  obtain ⟨grown', hlength', hreport'⟩ :=
    expandCalls_report (ofCodebase other) (Build.directGraph other) other.callSites
  have hdirect : (Build.directGraph code).edges.length =
      (Build.directGraph other).edges.length := by
    refine (wellFormed_directGraph code).length_edges_eq (wellFormed_directGraph other) ?_
    intro u v
    rw [hasEdge_directGraph, hasEdge_directGraph, h.directCall_iff hcode]
  have hall : code.callGraph.edges.length = other.callGraph.edges.length :=
    code.wellFormed_callGraph.length_edges_eq other.wellFormed_callGraph (h.hasEdge_iff hcode)
  have hgrown : grown = grown' := by
    unfold callGraph at hall
    omega
  have hsites := h.callSites_perm hcode
  rw [hreport, hreport', hgrown, hsites.countP_eq, hsites.countP_eq, h.callsInterface_eq hcode,
    h.misses_eq hcode]

end Distinct

theorem graph_analyse_none (code : Codebase) (keep : Bool) :
    (code.analyse none keep).graph = code.callGraph := by
  rw [graph_analyse, entryPoints_analyse]
  exact CallGraph.mapNodes_id code.callGraph _

theorem entryPoint?_analyse_none (code : Codebase) (keep : Bool) (s : Signature) :
    (code.analyse none keep).entryPoint? s = none := by
  rw [Analysis.entryPoint?, entryPoints_analyse]
  rfl

/-- Code in another order, with its classes, methods and calls permuted, has the same answers
without a classifier: the same signatures, relations and cycles, the same report of dispatch and,
below every signature to every depth, the same tree or the same refusal. -/
theorem analyse_reordered (h : code.Reorders other) (hcode : code.Distinct) (keep : Bool) :
    (code.analyse none keep).graph.signatures = (other.analyse none keep).graph.signatures ∧
    (code.analyse none keep).relations = (other.analyse none keep).relations ∧
    (code.analyse none keep).cycles = (other.analyse none keep).cycles ∧
    (code.analyse none keep).summary.dispatch = (other.analyse none keep).summary.dispatch ∧
    ∀ (s : Signature) (depth : Nat),
      (code.analyse none keep).tree s depth = (other.analyse none keep).tree s depth := by
  have hg := code.wellFormed_callGraph
  have hh := other.wellFormed_callGraph
  have hagree := h.agrees hcode
  rw [Analysis.relations, Analysis.relations, Analysis.cycles, Analysis.cycles, report_analyse,
    report_analyse, graph_analyse_none, graph_analyse_none]
  refine ⟨hagree.signatures_eq, hagree.sortedEdges_eq hg hh, hagree.cycles_eq hg hh,
    h.report_eq hcode, fun s depth => ?_⟩
  rcases Nat.lt_or_ge maxTreeDepth depth with hdepth | hdepth
  · rw [Analysis.tree_refused hdepth, Analysis.tree_refused hdepth]
  · rw [Analysis.tree, Analysis.tree, graph_analyse_none, graph_analyse_none,
      entryPoint?_analyse_none, entryPoint?_analyse_none,
      hagree.trace_eq hg hh (Analysis.lt_depthBound hdepth)]

end Codebase

def storeInterface : ClassDecl where
  name := "Store"
  isInterface := true
  methods := [{ name := "load" }]

def diskStore : ClassDecl where
  name := "DiskStore"
  interfaces := ["Store"]
  fields := [⟨"loader", "Loader"⟩]
  methods := [{ name := "load", calls := ["loader.retry()"] }]

def memoryStore : ClassDecl where
  name := "MemoryStore"
  interfaces := ["Store"]
  methods := [{ name := "load" }]

def loader (methods : List MethodDecl) : ClassDecl where
  name := "Loader"
  fields := [⟨"store", "Store"⟩]
  methods := methods

def loaderRun (calls : List String) : MethodDecl where
  name := "run"
  calls := calls

def loaderRetry : MethodDecl where
  name := "retry"
  calls := ["run()"]

def interfaceFirst : Codebase where
  classes :=
    [storeInterface, diskStore, memoryStore,
      loader [loaderRun ["store.load()", "retry()"], loaderRetry]]

def loaderFirst : Codebase where
  classes :=
    [loader [loaderRetry, loaderRun ["retry()", "store.load()"]], memoryStore, storeInterface,
      diskStore]

theorem MethodDecl.Reorders.refl (m : MethodDecl) : m.Reorders m where
  same := rfl
  calls := .refl _

theorem ClassDecl.Reorders.refl (c : ClassDecl) : c.Reorders c where
  same := rfl
  methods := ⟨_, List.forall₂_same.mpr fun m _ => .refl m, .refl _⟩

theorem interfaceFirst_reorders : interfaceFirst.Reorders loaderFirst := by
  have hrun : (loaderRun ["store.load()", "retry()"]).Reorders
      (loaderRun ["retry()", "store.load()"]) := ⟨rfl, .swap ..⟩
  have hloader : (loader [loaderRun ["store.load()", "retry()"], loaderRetry]).Reorders
      (loader [loaderRetry, loaderRun ["retry()", "store.load()"]]) :=
    ⟨rfl, _, .cons hrun (.cons (.refl _) .nil), .swap ..⟩
  refine ⟨_, .cons (.refl _) (.cons (.refl _) (.cons (.refl _) (.cons hloader .nil))), ?_⟩
  decide

theorem analyse_reordered_stores :
    interfaceFirst.Reorders loaderFirst ∧ interfaceFirst.Distinct ∧
      (interfaceFirst.analyse none false).graph.nodes ≠
        (loaderFirst.analyse none false).graph.nodes ∧
      (interfaceFirst.analyse none false).cycles = (loaderFirst.analyse none false).cycles ∧
      (interfaceFirst.analyse none false).summary.dispatch =
        (loaderFirst.analyse none false).summary.dispatch ∧
      (interfaceFirst.analyse none false).tree "Loader.run" 5 =
        (loaderFirst.analyse none false).tree "Loader.run" 5 := by
  have hdistinct : interfaceFirst.Distinct := ⟨by decide, by decide⟩
  obtain ⟨-, -, hcycles, hreport, htrees⟩ :=
    Codebase.analyse_reordered interfaceFirst_reorders hdistinct false
  exact ⟨interfaceFirst_reorders, hdistinct, by decide +kernel, hcycles, hreport,
    htrees "Loader.run" 5⟩

end CallTrace
