import CallTrace.Proofs.Build.Named

/-!
What a built graph contains. Every pass adds nodes, or calls together with their ends, and takes
nothing away; so the calls of the graph are those that the passes find in the code.
-/

namespace CallTrace

namespace CallGraph

/-- The second graph has what the first one has, and these calls with their ends. -/
structure AddsCalls (g h : CallGraph) (calls : Signature → Signature → Prop) : Prop where
  wellFormed : g.WellFormed → h.WellFormed
  hasEdge : ∀ u v, h.hasEdge u v = true ↔ g.hasEdge u v = true ∨ calls u v
  hasNode : ∀ s, h.hasNode s = true ↔ g.hasNode s = true ∨ ∃ t, calls s t ∨ calls t s

namespace AddsCalls

variable {g h k : CallGraph} {calls more : Signature → Signature → Prop}

theorem none (g : CallGraph) : g.AddsCalls g fun _ _ => False where
  wellFormed hg := hg
  hasEdge u v := by simp
  hasNode s := by simp

theorem link (g : CallGraph) (u v : Signature) :
    g.AddsCalls (g.link u v) fun a b => a = u ∧ b = v where
  wellFormed hg := hg.link u v
  hasEdge a b := hasEdge_link
  hasNode s := by
    simp only [hasNode_link, Bool.or_eq_true, decide_eq_true_eq, or_assoc]
    apply or_congr_right
    constructor
    · intro hends
      rcases hends with rfl | rfl
      · exact ⟨v, .inl ⟨rfl, rfl⟩⟩
      · exact ⟨u, .inr ⟨rfl, rfl⟩⟩
    · intro hends
      obtain ⟨t, ⟨rfl, -⟩ | ⟨-, rfl⟩⟩ := hends
      · exact .inl rfl
      · exact .inr rfl

theorem trans (hfirst : g.AddsCalls h calls) (hsecond : h.AddsCalls k more) :
    g.AddsCalls k fun u v => calls u v ∨ more u v where
  wellFormed hg := hsecond.wellFormed (hfirst.wellFormed hg)
  hasEdge u v := by rw [hsecond.hasEdge, hfirst.hasEdge, or_assoc]
  hasNode s := by
    rw [hsecond.hasNode, hfirst.hasNode, or_assoc, ← exists_or]
    simp only [or_or_or_comm]

theorem congr (hadds : g.AddsCalls h calls) (hcalls : ∀ u v, calls u v ↔ more u v) :
    g.AddsCalls h more := by
  have heq : calls = more := funext fun u => funext fun v => propext (hcalls u v)
  exact heq ▸ hadds

/-- A pass over items, each of which adds its calls, adds the calls of all of them. -/
theorem foldl {state item : Type} (graph : state → CallGraph) {step : state → item → state}
    {callsOf : item → Signature → Signature → Prop}
    (hstep : ∀ st a, (graph st).AddsCalls (graph (step st a)) (callsOf a))
    (items : List item) (st : state) :
    (graph st).AddsCalls (graph (items.foldl step st)) fun u v => ∃ a ∈ items, callsOf a u v := by
  induction items generalizing st with
  | nil => exact (none _).congr (by simp)
  | cons a rest ih => exact ((hstep st a).trans (ih (step st a))).congr (by simp)

end AddsCalls

end CallGraph

namespace Codebase

structure Declares (code : Codebase) (c : ClassDecl) (m : MethodDecl) : Prop where
  mem_classes : c ∈ code.classes
  class_named : Text.isBlank c.name = false
  mem_methods : m ∈ c.methods
  method_named : Text.isBlank m.name = false

/-- A declared method has a raw call that means this in its scope. -/
def Calls (code : Codebase) (caller : Signature) (resolution : Resolution) : Prop :=
  ∃ c m, code.Declares c m ∧ caller = Signature.join c.name m.name ∧
    ∃ raw ∈ m.calls, code.resolve (code.scope c.name m) raw = some resolution

def DirectCall (code : Codebase) (u v : Signature) : Prop :=
  ∃ resolution, code.Calls u resolution ∧ v = resolution.signature

/-- The calls of implementations that a call of an interface method may run. -/
def DispatchedCall (code : Codebase) (u v : Signature) : Prop :=
  ∃ owner method, code.Calls u (.resolved owner method) ∧
    v ∈ (Hierarchy.ofCodebase code).targets owner method

theorem mem_declaredMethods {code : Codebase} {c : ClassDecl} {m : MethodDecl} :
    (c, m) ∈ code.declaredMethods ↔ code.Declares c m := by
  simp only [declaredMethods, List.mem_flatMap, List.mem_map, List.mem_filter, Bool.not_eq_true',
    Prod.mk.injEq]
  constructor
  · intro h
    obtain ⟨_, ⟨hc, hcname⟩, _, ⟨hm, hmname⟩, rfl, rfl⟩ := h
    exact ⟨hc, hcname, hm, hmname⟩
  · intro h
    exact ⟨c, ⟨h.mem_classes, h.class_named⟩, m, ⟨h.mem_methods, h.method_named⟩, rfl, rfl⟩

theorem mem_rawCalls {code : Codebase} {call : RawCall} :
    call ∈ code.rawCalls ↔
      ∃ c m, code.Declares c m ∧ call.caller = Signature.join c.name m.name ∧
        ∃ raw ∈ m.calls, code.resolve (code.scope c.name m) raw = call.resolution := by
  obtain ⟨caller, resolution⟩ := call
  simp only [rawCalls, callsOf, List.mem_flatMap, List.mem_map, Prod.exists, mem_declaredMethods,
    RawCall.mk.injEq]
  constructor
  · intro h
    obtain ⟨c, m, hdeclared, raw, hraw, hcaller, hresolve⟩ := h
    exact ⟨c, m, hdeclared, hcaller.symm, raw, hraw, hresolve⟩
  · intro h
    obtain ⟨c, m, hdeclared, hcaller, raw, hraw, hresolve⟩ := h
    exact ⟨c, m, hdeclared, raw, hraw, hcaller.symm, hresolve⟩

theorem mem_callSites {code : Codebase} {site : CallSite} :
    site ∈ code.callSites ↔ code.Calls site.caller site.resolution := by
  have hcall : site ∈ code.callSites ↔ ⟨site.caller, some site.resolution⟩ ∈ code.rawCalls := by
    simp only [callSites, RawCall.site?, List.mem_filterMap, Option.map_eq_some_iff]
    constructor
    · intro h
      obtain ⟨⟨caller, _⟩, hmem, resolution, rfl, rfl⟩ := h
      exact hmem
    · intro h
      exact ⟨_, h, site.resolution, rfl, rfl⟩
  rw [hcall, mem_rawCalls]
  rfl

end Codebase

namespace Build

theorem addCall_addsCalls (h : Hierarchy) (g : CallGraph) (site : CallSite) :
    g.AddsCalls (addCall h g site)
      fun u v => u = site.caller ∧ v = site.resolution.signature := by
  obtain ⟨caller, resolution⟩ := site
  have hlink := fun g : CallGraph => CallGraph.AddsCalls.link g caller resolution.signature
  cases resolution with
  | heuristic expression => exact hlink g
  | resolved owner method =>
      unfold addCall
      refine ⟨fun hg => (hlink _).wellFormed (hg.insertNode _), fun u v => ?_, fun s => ?_⟩
      · rw [(hlink _).hasEdge, CallGraph.hasEdge_insertNode]
      · rw [(hlink _).hasNode, CallGraph.hasNode_insertNode, Bool.or_eq_true, decide_eq_true_eq,
          or_assoc]
        apply or_congr_right
        refine or_iff_right_of_imp ?_
        rintro rfl
        exact ⟨caller, .inr ⟨rfl, rfl⟩⟩

theorem directGraph_addsCalls (code : Codebase) :
    (declaredGraph code).AddsCalls (directGraph code) code.DirectCall := by
  refine (CallGraph.AddsCalls.foldl id (addCall_addsCalls (.ofCodebase code))
    code.callSites _).congr ?_
  intro u v
  constructor
  · intro h
    obtain ⟨site, hsite, rfl, rfl⟩ := h
    rw [Codebase.mem_callSites] at hsite
    exact ⟨site.resolution, hsite, rfl⟩
  · intro h
    obtain ⟨resolution, hcalls, rfl⟩ := h
    exact ⟨⟨u, resolution⟩, Codebase.mem_callSites.mpr hcalls, rfl, rfl⟩

end Build

namespace Hierarchy

theorem linkTargets_addsCalls (caller : Signature) (targets : List Signature) (g : CallGraph)
    (report : DispatchReport) :
    g.AddsCalls (linkTargets caller targets (g, report)).1
      fun u v => u = caller ∧ v ∈ targets := by
  induction targets generalizing g report with
  | nil => exact (CallGraph.AddsCalls.none _).congr (by simp)
  | cons target rest ih =>
      have hlink := CallGraph.AddsCalls.link g caller target
      have hcalls : ∀ u v, (u = caller ∧ v = target) ∨ (u = caller ∧ v ∈ rest) ↔
          u = caller ∧ v ∈ target :: rest := by
        intro u v
        rw [List.mem_cons, and_or_left]
      unfold CallGraph.link at hlink
      unfold linkTargets
      split <;> rename_i heq <;> rw [heq] at hlink <;> exact (hlink.trans (ih _ _)).congr hcalls

theorem expandCall_addsCalls (h : Hierarchy) (state : CallGraph × DispatchReport)
    (site : CallSite) :
    state.1.AddsCalls (h.expandCall state site).1 fun u v =>
      u = site.caller ∧ ∃ owner method, site.resolution = .resolved owner method ∧
        v ∈ h.targets owner method := by
  obtain ⟨caller, resolution⟩ := site
  cases resolution with
  | heuristic expression => exact (CallGraph.AddsCalls.none _).congr (by simp)
  | resolved owner method =>
      have hcalls : ∀ u v, (u = caller ∧ v ∈ h.targets owner method) ↔
          (u = caller ∧ ∃ owner' method',
            Resolution.resolved owner method = .resolved owner' method' ∧
              v ∈ h.targets owner' method') := by
        simp
      refine CallGraph.AddsCalls.congr ?_ hcalls
      unfold expandCall
      dsimp only
      split
      · split
        · rename_i hnone
          exact (CallGraph.AddsCalls.none _).congr (by simp [hnone])
        · exact linkTargets_addsCalls caller (h.targets owner method) _ _
      · rename_i hinterface
        exact (CallGraph.AddsCalls.none _).congr (by simp [targets, hinterface])

theorem expandCalls_addsCalls (code : Codebase) (g : CallGraph) :
    g.AddsCalls ((ofCodebase code).expandCalls g code.callSites).1 code.DispatchedCall := by
  refine (CallGraph.AddsCalls.foldl Prod.fst
    (expandCall_addsCalls (ofCodebase code)) code.callSites (g, {})).congr ?_
  intro u v
  constructor
  · intro h
    obtain ⟨⟨caller, resolution⟩, hsite, rfl, owner, method, rfl, htarget⟩ := h
    rw [Codebase.mem_callSites] at hsite
    exact ⟨owner, method, hsite, htarget⟩
  · intro h
    obtain ⟨owner, method, hcalls, htarget⟩ := h
    exact ⟨⟨u, .resolved owner method⟩, Codebase.mem_callSites.mpr hcalls, rfl, owner, method, rfl,
      htarget⟩

end Hierarchy

namespace Codebase

theorem hasNode_declared {code : Codebase} {s : Signature} :
    (Build.declaredGraph code).hasNode s = true ↔
      ∃ c m, code.Declares c m ∧ s = Signature.join c.name m.name := by
  rw [Build.declaredGraph, CallGraph.hasNode_insertNodes]
  simp [Build.methodNode, mem_declaredMethods, eq_comm]

theorem wellFormed_directGraph (code : Codebase) : (Build.directGraph code).WellFormed :=
  (Build.directGraph_addsCalls code).wellFormed
    (CallGraph.wellFormed_empty.insertNodes Build.methodNode code.declaredMethods)

theorem hasEdge_directGraph {code : Codebase} {u v : Signature} :
    (Build.directGraph code).hasEdge u v = true ↔ code.DirectCall u v := by
  rw [(Build.directGraph_addsCalls code).hasEdge, Build.declaredGraph,
    CallGraph.hasEdge_insertNodes]
  simp

theorem callGraph_addsCalls (code : Codebase) :
    (Build.declaredGraph code).AddsCalls code.callGraph
      fun u v => code.DirectCall u v ∨ code.DispatchedCall u v :=
  (Build.directGraph_addsCalls code).trans
    (Hierarchy.expandCalls_addsCalls code (Build.directGraph code))

theorem wellFormed_callGraph (code : Codebase) : code.callGraph.WellFormed :=
  code.callGraph_addsCalls.wellFormed
    (CallGraph.wellFormed_empty.insertNodes Build.methodNode code.declaredMethods)

theorem hasEdge_callGraph {code : Codebase} {u v : Signature} :
    code.callGraph.hasEdge u v = true ↔ code.DirectCall u v ∨ code.DispatchedCall u v := by
  rw [code.callGraph_addsCalls.hasEdge, Build.declaredGraph, CallGraph.hasEdge_insertNodes]
  simp

theorem hasNode_callGraph {code : Codebase} {s : Signature} :
    code.callGraph.hasNode s = true ↔
      (∃ c m, code.Declares c m ∧ s = Signature.join c.name m.name) ∨
        ∃ t, code.callGraph.hasEdge s t = true ∨ code.callGraph.hasEdge t s = true := by
  rw [code.callGraph_addsCalls.hasNode, hasNode_declared]
  simp only [hasEdge_callGraph]

theorem mem_toldEntryPoints {code : Codebase} {classifier : Option Classifier}
    {entry : EntryPoint} :
    entry ∈ code.toldEntryPoints classifier ↔
      ∃ teller ∈ classifier, entry ∈ teller.entryPoints code := by
  cases classifier <;> simp [toldEntryPoints]

section Analyse

variable (code : Codebase) (classifier : Option Classifier) (keep : Bool)

theorem wellFormed_analyse : (code.analyse classifier keep).graph.WellFormed := by
  rw [graph_analyse]
  exact (code.wellFormed_callGraph.insertNodes Build.entryNode _).mapNodes _

theorem hasEdge_analyse (u v : Signature) :
    (code.analyse classifier keep).graph.hasEdge u v = code.callGraph.hasEdge u v := by
  rw [graph_analyse, CallGraph.hasEdge_mapNodes, CallGraph.hasEdge_insertNodes]

theorem hasNode_analyse (s : Signature) :
    (code.analyse classifier keep).graph.hasNode s = true ↔
      code.callGraph.hasNode s = true ∨
        EntryPoint.Names (code.analyse classifier keep).entryPoints s := by
  rw [graph_analyse, CallGraph.hasNode_mapNodes, CallGraph.hasNode_insertNodes]
  rfl

theorem names_analyse (s : Signature) :
    EntryPoint.Names (code.analyse classifier keep).entryPoints s ↔
      ∃ c ∈ classifier, ∃ entry ∈ c.entryPoints code,
        (Hierarchy.ofCodebase code).StandsFor keep entry s := by
  rw [entryPoints_analyse, Hierarchy.names_expandEntryPoints]
  cases classifier <;> simp [toldEntryPoints]

end Analyse

/-- A build finds all calls of the code and no others. Its graph has one edge for each call of a
declared method as it is resolved, and for each implementation that such a call may run; the edge
to an interface stays beside those to its implementations. Its nodes are the declared methods, the
ends of the edges and the entry points, where the implementations of an entry point stand for it. -/
theorem analyse_content (code : Codebase) (classifier : Option Classifier) (keep : Bool) :
    (code.analyse classifier keep).graph.WellFormed ∧
    (∀ u v, (code.analyse classifier keep).graph.hasEdge u v = true ↔
      code.DirectCall u v ∨ code.DispatchedCall u v) ∧
    (∀ s, (code.analyse classifier keep).graph.hasNode s = true ↔
      (∃ c m, code.Declares c m ∧ s = Signature.join c.name m.name) ∨
      (∃ t, (code.analyse classifier keep).graph.hasEdge s t = true ∨
        (code.analyse classifier keep).graph.hasEdge t s = true) ∨
      ∃ entry ∈ (code.analyse classifier keep).entryPoints, entry.signature = s) ∧
    ∀ s, (∃ entry ∈ (code.analyse classifier keep).entryPoints, entry.signature = s) ↔
      ∃ c ∈ classifier, ∃ entry ∈ c.entryPoints code,
        (Hierarchy.ofCodebase code).StandsFor keep entry s := by
  refine ⟨code.wellFormed_analyse classifier keep, ?_, ?_, code.names_analyse classifier keep⟩
  · intro u v
    rw [hasEdge_analyse, hasEdge_callGraph]
  · intro s
    rw [hasNode_analyse, hasNode_callGraph, or_assoc]
    simp only [hasEdge_analyse]
    rfl

end Codebase

end CallTrace
