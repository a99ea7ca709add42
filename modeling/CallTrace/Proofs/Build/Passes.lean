import CallTrace.Build
import CallTrace.Proofs.CallGraph.Content
import Mathlib.Data.List.Induction

/-!
The passes of a build as runs over what the code declares and calls. Each step of a pass moves one
count by one, so the counts stand in balance with what the pass has come through.
-/

namespace CallTrace

namespace Codebase

/-- Methods that have a name, in classes that have one. -/
def declaredMethods (code : Codebase) : List (ClassDecl × MethodDecl) :=
  (code.classes.filter fun c => !Text.isBlank c.name).flatMap fun c =>
    (c.methods.filter fun m => !Text.isBlank m.name).map fun m => (c, m)

def rawCalls (code : Codebase) : List RawCall :=
  code.declaredMethods.flatMap fun (c, m) => code.callsOf c m

def RawCall.site? (call : RawCall) : Option CallSite :=
  call.resolution.map fun resolution => ⟨call.caller, resolution⟩

def callSites (code : Codebase) : List CallSite :=
  code.rawCalls.filterMap RawCall.site?

end Codebase

theorem CallGraph.insertNodes_append (g : CallGraph) (toNode : α → GraphNode) (items more : List α) :
    g.insertNodes toNode (items ++ more) = (g.insertNodes toNode items).insertNodes toNode more :=
  List.foldl_append ..

namespace Build

open Codebase (RawCall)

def methodNode (decl : ClassDecl × MethodDecl) : GraphNode :=
  ⟨Signature.join decl.1.name decl.2.name, decl.1.name, fileOrUnknown decl.1.filePath, .unknown⟩

def entryNode (entry : EntryPoint) : GraphNode :=
  ⟨entry.signature, entry.className, fileOrUnknown entry.filePath, .unknown⟩

def declaredGraph (code : Codebase) : CallGraph :=
  CallGraph.empty.insertNodes methodNode code.declaredMethods

/-- The graph of declared methods and the calls between them, before dispatch. -/
def directGraph (code : Codebase) : CallGraph :=
  code.callSites.foldl (addCall (.ofCodebase code)) (declaredGraph code)

theorem foldl_addMethod_eq (c : ClassDecl) (methods : List MethodDecl) (g : CallGraph) :
    methods.foldl (addMethod c) g =
      g.insertNodes methodNode
        ((methods.filter fun m => !Text.isBlank m.name).map fun m => (c, m)) := by
  rw [CallGraph.insertNodes, List.foldl_map, List.foldl_filter]
  congr 1
  funext g m
  cases hname : Text.isBlank m.name <;> simp [addMethod, methodNode, hname]

/-- The first pass has come through these classes, each of which it has skipped or taken. -/
structure Declared (classes : List ClassDecl) (start state : State) : Prop where
  graph : state.graph = start.graph.insertNodes methodNode (Codebase.declaredMethods { classes })
  sites : state.sites = start.sites
  summary : state.summary =
    { start.summary with skippedClasses := state.summary.skippedClasses }
  balance : state.summary.skippedClasses + (classes.filter fun c => !Text.isBlank c.name).length =
    start.summary.skippedClasses + classes.length

theorem Declared.addClass {classes : List ClassDecl} {start state : State}
    (h : Declared classes start state) (c : ClassDecl) :
    Declared (classes ++ [c]) start (addClass state c) := by
  obtain ⟨hgraph, hsites, hsummary, hbalance⟩ := h
  unfold Build.addClass
  cases hname : Text.isBlank c.name with
  | true =>
      refine ⟨?_, hsites, ?_, ?_⟩
      · simpa [Codebase.declaredMethods, hname] using hgraph
      · rw [if_pos rfl, hsummary]
      · simp [hname]
        omega
  | false =>
      refine ⟨?_, hsites, hsummary, ?_⟩
      · simp only [Codebase.declaredMethods] at hgraph
        simp [Codebase.declaredMethods, hname, foldl_addMethod_eq, hgraph,
          CallGraph.insertNodes_append]
      · simp [hname]
        omega

theorem declared_foldl (classes : List ClassDecl) (start : State) :
    Declared classes start (classes.foldl addClass start) := by
  induction classes using List.reverseRecOn with
  | nil => exact ⟨rfl, rfl, rfl, rfl⟩
  | append_singleton classes c ih =>
      rw [List.foldl_concat]
      exact ih.addClass c

/-- The second pass has come through these calls, each of which it has resolved, kept by its text
or skipped. -/
structure Took (h : Hierarchy) (calls : List RawCall) (start state : State) : Prop where
  sites : state.sites = calls.filterMap RawCall.site?
  graph : state.graph = state.sites.foldl (addCall h) start.graph
  balance : state.summary.resolvedCalls + state.summary.heuristicCalls +
    state.summary.skippedCalls = calls.length
  resolved : state.summary.resolvedCalls =
    state.sites.countP fun site => site.resolution.owner?.isSome
  skipped : state.summary.skippedCalls = calls.countP fun call => call.resolution.isNone
  summary : state.summary =
    { start.summary with
      resolvedCalls := state.summary.resolvedCalls
      heuristicCalls := state.summary.heuristicCalls
      skippedCalls := state.summary.skippedCalls }

theorem Took.takeCall {h : Hierarchy} {calls : List RawCall} {start state : State}
    (htook : Took h calls start state) (call : RawCall) :
    Took h (calls ++ [call]) start (takeCall h state call) := by
  obtain ⟨hsites, hgraph, hbalance, hresolved, hskipped, hsummary⟩ := htook
  obtain ⟨caller, _ | resolution⟩ := call
  · refine ⟨?_, hgraph, ?_, hresolved, ?_, ?_⟩
    · simp [Build.takeCall, RawCall.site?, hsites]
    · simp only [Build.takeCall, countCall, List.length_append, List.length_singleton]
      omega
    · simp [Build.takeCall, countCall, hskipped]
    · exact congrArg (fun s => { s with skippedCalls := state.summary.skippedCalls + 1 }) hsummary
  · refine ⟨?_, ?_, ?_, ?_, ?_, ?_⟩
    · simp [Build.takeCall, RawCall.site?, hsites]
    · simp [Build.takeCall, hgraph]
    · cases resolution <;>
        simp only [Build.takeCall, countCall, List.length_append, List.length_singleton] <;> omega
    · cases resolution <;> simp [Build.takeCall, countCall, hresolved, Resolution.owner?]
    · cases resolution <;> simp [Build.takeCall, countCall, hskipped]
    · cases resolution with
      | resolved owner method =>
          exact congrArg (fun s => { s with resolvedCalls := state.summary.resolvedCalls + 1 })
            hsummary
      | heuristic expression =>
          exact congrArg (fun s => { s with heuristicCalls := state.summary.heuristicCalls + 1 })
            hsummary

theorem took_foldl (h : Hierarchy) (calls : List RawCall) {start : State}
    (hsites : start.sites = []) (hresolved : start.summary.resolvedCalls = 0)
    (hheuristic : start.summary.heuristicCalls = 0) (hskipped : start.summary.skippedCalls = 0) :
    Took h calls start (calls.foldl (takeCall h) start) := by
  induction calls using List.reverseRecOn with
  | nil =>
      refine ⟨hsites, ?_, ?_, ?_, hskipped, rfl⟩
      · simp [hsites]
      · simp [hresolved, hheuristic, hskipped]
      · simp [hresolved, hsites]
  | append_singleton calls call ih =>
      rw [List.foldl_concat]
      exact ih.takeCall call

def start (code : Codebase) : State where
  summary := { classes := code.classes.length, methods := code.methodCount }

theorem wire_eq (code : Codebase) (h : Hierarchy) :
    wire code h = code.rawCalls.foldl (takeCall h) (code.classes.foldl addClass (start code)) := by
  rw [wire, Codebase.rawCalls, Codebase.declaredMethods, List.foldl_flatMap, List.foldl_flatMap]
  congr 1
  funext state c
  rw [takeClass, List.foldl_map]

theorem took_wire (code : Codebase) (h : Hierarchy) :
    Took h code.rawCalls (code.classes.foldl addClass (start code)) (wire code h) := by
  obtain ⟨-, hsites, hsummary, -⟩ := declared_foldl code.classes (start code)
  rw [wire_eq]
  apply took_foldl
  · exact hsites
  · exact congrArg BuildSummary.resolvedCalls hsummary
  · exact congrArg BuildSummary.heuristicCalls hsummary
  · exact congrArg BuildSummary.skippedCalls hsummary

theorem classes_wire (code : Codebase) (h : Hierarchy) :
    (wire code h).summary.classes = code.classes.length := by
  rw [(took_wire code h).summary, (declared_foldl code.classes (start code)).summary]
  rfl

theorem skippedClasses_wire (code : Codebase) (h : Hierarchy) :
    (wire code h).summary.skippedClasses +
      (code.classes.filter fun c => !Text.isBlank c.name).length = code.classes.length := by
  rw [(took_wire code h).summary, (declared_foldl code.classes (start code)).balance]
  exact Nat.zero_add _

theorem sites_wire (code : Codebase) (h : Hierarchy) : (wire code h).sites = code.callSites :=
  (took_wire code h).sites

theorem graph_wire (code : Codebase) : (wire code (.ofCodebase code)).graph = directGraph code := by
  rw [(took_wire code _).graph, sites_wire, (declared_foldl ..).graph]
  rfl

/-- The layer a classifier gives to a node; nodes without a known class keep theirs. -/
def classifyNode (classifier : Classifier) (code : Codebase) (node : GraphNode) : GraphNode :=
  if node.className == unknownText then node
  else
    { node with
      layer := classifier.layerOf node.className (code.find? node.className) node.method }

theorem signature_classifyNode (classifier : Classifier) (code : Codebase) (node : GraphNode) :
    (classifyNode classifier code node).signature = node.signature := by
  unfold classifyNode
  split <;> rfl

section SetLayers

variable (layerOf : GraphNode → Layer)

def setLayers (targets : List GraphNode) (n : GraphNode) : GraphNode :=
  targets.foldl (fun n target => CallGraph.withLayer target.signature (layerOf target) n) n

theorem signature_setLayers (targets : List GraphNode) (n : GraphNode) :
    (setLayers layerOf targets n).signature = n.signature := by
  unfold setLayers
  induction targets generalizing n with
  | nil => rfl
  | cons target rest ih => rw [List.foldl_cons, ih, CallGraph.signature_withLayer]

theorem foldl_setLayer (targets : List GraphNode) (g : CallGraph) :
    targets.foldl (fun g n => g.setLayer n.signature (layerOf n)) g =
      g.mapNodes (setLayers layerOf targets) (signature_setLayers layerOf targets) := by
  induction targets generalizing g with
  | nil => exact (g.mapNodes_id _).symm
  | cons target rest ih =>
      rw [List.foldl_cons, ih, CallGraph.setLayer_eq, CallGraph.mapNodes_mapNodes]
      rfl

theorem setLayers_of_not_mem {targets : List GraphNode} {n : GraphNode}
    (h : ∀ target ∈ targets, target.signature ≠ n.signature) : setLayers layerOf targets n = n := by
  unfold setLayers
  induction targets with
  | nil => rfl
  | cons target rest ih =>
      obtain ⟨htarget, hrest⟩ := List.forall_mem_cons.mp h
      rw [List.foldl_cons, CallGraph.withLayer, if_neg htarget.symm, ih hrest]

theorem setLayers_of_mem {targets : List GraphNode} {n : GraphNode} (hmem : n ∈ targets)
    (hnodup : (targets.map fun target => target.signature).Nodup) :
    setLayers layerOf targets n = { n with layer := layerOf n } := by
  induction targets with
  | nil => contradiction
  | cons target rest ih =>
      obtain ⟨hnew, hrest⟩ := List.nodup_cons.mp hnodup
      have hothers : ∀ other ∈ rest, other.signature ≠ target.signature := by
        intro other hother hsame
        exact hnew (List.mem_map.mpr ⟨other, hother, hsame⟩)
      rcases List.mem_cons.mp hmem with rfl | hmem
      · have hset : CallGraph.withLayer n.signature (layerOf n) n =
            { n with layer := layerOf n } := if_pos rfl
        have hkept := setLayers_of_not_mem layerOf (n := { n with layer := layerOf n }) hothers
        rw [← hset] at hkept ⊢
        exact hkept
      · refine Eq.trans ?_ (ih hmem hrest)
        have hother := hothers n hmem
        simp only [setLayers, List.foldl_cons, CallGraph.withLayer, if_neg hother]

end SetLayers

theorem classify_eq (classifier : Classifier) (code : Codebase) (g : CallGraph) :
    classify classifier code g =
      g.mapNodes (classifyNode classifier code) (signature_classifyNode classifier code) := by
  refine (foldl_setLayer (fun n => classifier.layerOf n.className (code.find? n.className) n.method)
    _ g).trans (g.mapNodes_congr fun n hn => ?_)
  unfold classifyNode
  split
  · rename_i hunknown
    apply setLayers_of_not_mem
    intro target htarget hsame
    obtain ⟨htarget, hknown⟩ := List.mem_filter.mp htarget
    obtain rfl := List.inj_on_of_nodup_map g.nodup_listed htarget hn hsame
    simp_all
  · rename_i hknown
    refine setLayers_of_mem _ (List.mem_filter.mpr ⟨hn, ?_⟩) ?_
    · simpa using hknown
    · exact g.nodup_listed.sublist (List.filter_sublist.map _)

def layerNode (classifier : Option Classifier) (code : Codebase) (node : GraphNode) : GraphNode :=
  match classifier with
  | some c => classifyNode c code node
  | none => node

theorem signature_layerNode (classifier : Option Classifier) (code : Codebase) (node : GraphNode) :
    (layerNode classifier code node).signature = node.signature := by
  cases classifier with
  | none => rfl
  | some c => exact signature_classifyNode c code node

end Build

namespace Codebase

/-- The graph of all calls, before entry points and layers. -/
def callGraph (code : Codebase) : CallGraph :=
  ((Hierarchy.ofCodebase code).expandCalls (Build.directGraph code) code.callSites).1

def toldEntryPoints (code : Codebase) (classifier : Option Classifier) : List EntryPoint :=
  (classifier.map fun c => c.entryPoints code).getD []

section Analyse

variable (code : Codebase) (classifier : Option Classifier) (keep : Bool)

theorem entryPoints_analyse :
    (code.analyse classifier keep).entryPoints =
      ((Hierarchy.ofCodebase code).expandEntryPoints keep (code.toldEntryPoints classifier)
        ((Hierarchy.ofCodebase code).expandCalls (Build.directGraph code) code.callSites).2).1 := by
  simp only [analyse, Build.sites_wire, Build.graph_wire]
  rfl

theorem report_analyse :
    (code.analyse classifier keep).summary.dispatch =
      ((Hierarchy.ofCodebase code).expandEntryPoints keep (code.toldEntryPoints classifier)
        ((Hierarchy.ofCodebase code).expandCalls (Build.directGraph code) code.callSites).2).2 := by
  simp only [analyse, Build.sites_wire, Build.graph_wire]
  rfl

/-- Entry points add nodes to the graph of calls, and layers change neither nodes nor calls. -/
theorem graph_analyse :
    (code.analyse classifier keep).graph =
      (code.callGraph.insertNodes Build.entryNode
        (code.analyse classifier keep).entryPoints).mapNodes
          (Build.layerNode classifier code) (Build.signature_layerNode classifier code) := by
  cases classifier with
  | none =>
      rw [entryPoints_analyse]
      simp only [analyse, Build.sites_wire, Build.graph_wire]
      exact (CallGraph.mapNodes_id _ _).symm
  | some c =>
      rw [entryPoints_analyse]
      simp only [analyse, Build.sites_wire, Build.graph_wire]
      exact Build.classify_eq c code _

end Analyse

end Codebase

end CallTrace
