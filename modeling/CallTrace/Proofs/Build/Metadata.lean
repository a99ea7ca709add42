import CallTrace.Proofs.Build.Content
import CallTrace.Proofs.Dispatch.Expansion
import CallTrace.Proofs.Resolution.Lookup
import CallTrace.Proofs.Text.Dotted

/-!
What a built graph says about a callee. A signature keeps the node it gets first: that of its
declaration, or else the one that the first call of it makes. A call on a receiver without a known
type makes a node without a class, and so hides the class that a later call knows.
-/

namespace CallTrace

theorem Signature.join_inj {owner owner' method method' : String} (hmethod : '.' ∉ method.toList)
    (hmethod' : '.' ∉ method'.toList) (h : join owner method = join owner' method') :
    owner = owner' ∧ method = method' := by
  have howner := congrArg qualifier h
  have hname := congrArg Signature.method h
  rw [qualifier_join owner hmethod, qualifier_join owner' hmethod'] at howner
  rw [method_join owner hmethod, method_join owner' hmethod'] at hname
  exact ⟨howner, hname⟩

namespace Codebase

theorem Calls.not_mem_method {code : Codebase} {caller : Signature} {owner method : String}
    (h : code.Calls caller (.resolved owner method)) : '.' ∉ method.toList := by
  obtain ⟨c, m, -, -, raw, -, hresolve⟩ := h
  rw [(resolve_eq_resolved hresolve).1]
  exact Signature.not_mem_method _

end Codebase

namespace CallGraph

def AllNodes (g : CallGraph) (P : GraphNode → Prop) : Prop :=
  ∀ n ∈ g.nodes, P n

namespace AllNodes

variable {g : CallGraph} {P : GraphNode → Prop}

theorem insertNode (hg : g.AllNodes P) {node : GraphNode} (hnode : P node) :
    (g.insertNode node).AllNodes P := by
  intro n hn
  rw [nodes_insertNode] at hn
  split at hn
  · exact hg n hn
  · rcases List.mem_append.mp hn with hn | hn
    · exact hg n hn
    · rw [List.mem_singleton.mp hn]
      exact hnode

theorem link (hg : g.AllNodes P) {u v : Signature} (hu : P (.unknown u)) (hv : P (.unknown v)) :
    (g.link u v).AllNodes P := by
  intro n hn
  rw [nodes_link] at hn
  exact (hg.insertNode hu).insertNode hv n hn

theorem addEdges {changes : List Change} (hchanges : ∀ c ∈ changes, ∃ u v, c = .addEdge u v)
    (hunknown : ∀ s, P (.unknown s)) (hg : g.AllNodes P) : (changes.foldl change g).AllNodes P := by
  induction changes generalizing g with
  | nil => exact hg
  | cons c rest ih =>
      obtain ⟨⟨u, v, rfl⟩, hrest⟩ := List.forall_mem_cons.mp hchanges
      exact ih hrest (hg.link (hunknown u) (hunknown v))

end AllNodes

end CallGraph

namespace Build

/-- The node that a call makes of its callee if there is none yet. -/
def calleeNode (h : Hierarchy) (site : CallSite) : GraphNode :=
  match site.resolution with
  | .resolved owner method =>
      ⟨Signature.join owner method, owner, fileOrUnknown ((h.file? owner).getD unknownText),
        .unknown⟩
  | .heuristic expression => .unknown expression

theorem signature_calleeNode (h : Hierarchy) (site : CallSite) :
    (calleeNode h site).signature = site.resolution.signature := by
  obtain ⟨caller, owner | expression⟩ := site <;> rfl

theorem node?_addCall {h : Hierarchy} {g : CallGraph} {site : CallSite}
    (hcaller : g.hasNode site.caller = true) (s : Signature) :
    (addCall h g site).node? s = (g.insertNode (calleeNode h site)).node? s := by
  obtain ⟨caller, resolution⟩ := site
  cases resolution with
  | heuristic expression =>
      have hself : g.ensureNode caller = g := CallGraph.insertNode_eq_self hcaller
      change (g.link caller expression).node? s = (g.ensureNode expression).node? s
      rw [CallGraph.node?_eq_find?, CallGraph.nodes_link, hself, ← CallGraph.node?_eq_find?]
  | resolved owner method =>
      have hcallee : (g.insertNode (calleeNode h ⟨caller, .resolved owner method⟩)).hasNode
          (Signature.join owner method) = true := by
        simp [calleeNode]
      refine CallGraph.node?_link ?_ hcallee s
      simp [hcaller]

theorem node?_addCalls {h : Hierarchy} {g : CallGraph} {sites : List CallSite}
    (hcallers : ∀ site ∈ sites, g.hasNode site.caller = true) (s : Signature) :
    (sites.foldl (addCall h) g).node? s = (g.insertNodes (calleeNode h) sites).node? s := by
  rw [CallGraph.node?_insertNodes]
  induction sites generalizing g with
  | nil => simp
  | cons site rest ih =>
      obtain ⟨hcaller, hrest⟩ := List.forall_mem_cons.mp hcallers
      -- callers are nodes from the first pass on, so a call can only bring in its callee
      have hstill : ∀ other ∈ rest, (addCall h g site).hasNode other.caller = true := by
        intro other hother
        rw [(addCall_addsCalls h g site).hasNode]
        exact .inl (hrest other hother)
      rw [List.foldl_cons, ih hstill, node?_addCall hcaller, CallGraph.node?_insertNode,
        Option.or_assoc, List.find?_cons]
      by_cases heq : (calleeNode h site).signature = s
      · simp [heq]
      · rw [if_neg heq, Option.none_or, beq_false_of_ne heq]

/-- Declarations come first, then calls in the order of the code. -/
theorem node?_directGraph (code : Codebase) (s : Signature) :
    (directGraph code).node? s =
      ((code.declaredMethods.find? fun decl => (methodNode decl).signature == s).map
        methodNode).or
      ((code.callSites.find? fun site => site.resolution.signature == s).map
        (calleeNode (.ofCodebase code))) := by
  have hcallers : ∀ site ∈ code.callSites,
      (declaredGraph code).hasNode site.caller = true := by
    intro site hsite
    obtain ⟨c, m, hdeclared, hcaller, -⟩ := Codebase.mem_callSites.mp hsite
    exact Codebase.hasNode_declared.mpr ⟨c, m, hdeclared, hcaller⟩
  rw [directGraph, node?_addCalls hcallers, CallGraph.node?_insertNodes, declaredGraph,
    CallGraph.node?_insertNodes]
  simp only [signature_calleeNode]
  rfl

end Build

theorem Hierarchy.eq_addEdge_of_mem_expansion {h : Hierarchy} {sites : List CallSite}
    {c : CallGraph.Change} (hc : c ∈ sites.flatMap h.expansion) : ∃ u v, c = .addEdge u v := by
  obtain ⟨⟨caller, resolution⟩, -, hc⟩ := List.mem_flatMap.mp hc
  cases resolution with
  | heuristic expression => simp [expansion] at hc
  | resolved owner method =>
      obtain ⟨target, -, rfl⟩ := List.mem_map.mp hc
      exact ⟨caller, target, rfl⟩

namespace Codebase

theorem allNodes_callGraph {code : Codebase} {P : GraphNode → Prop}
    (hdeclared : ∀ decl ∈ code.declaredMethods, P (Build.methodNode decl))
    (hcallee : ∀ site ∈ code.callSites, P (Build.calleeNode (.ofCodebase code) site))
    (hunknown : ∀ s, P (.unknown s)) : code.callGraph.AllNodes P := by
  rw [callGraph, Hierarchy.expandCalls_graph]
  refine .addEdges (fun _ => Hierarchy.eq_addEdge_of_mem_expansion) hunknown ?_
  apply List.foldlRecOn (motive := fun g : CallGraph => g.AllNodes P)
  · apply List.foldlRecOn (motive := fun g : CallGraph => g.AllNodes P)
    · intro n hn
      simp [CallGraph.empty] at hn
    · intro g hg decl hdecl
      exact hg.insertNode (hdeclared decl hdecl)
  · intro g hg site hsite
    have hnode := hcallee site hsite
    obtain ⟨caller, owner | expression⟩ := site
    · exact (hg.insertNode hnode).link (hunknown _) (hunknown _)
    · exact hg.link (hunknown _) (hunknown _)

/-- Dispatch leaves the nodes there are as they are. -/
theorem node?_callGraph {code : Codebase} {s : Signature} {n : GraphNode}
    (hn : (Build.directGraph code).node? s = some n) : code.callGraph.node? s = some n := by
  have hlayers : ((code.callSites.flatMap (Hierarchy.ofCodebase code).expansion).filterMap
      (CallGraph.Change.layerFor s)) = [] := by
    rw [List.filterMap_eq_nil_iff]
    intro c hc
    obtain ⟨u, v, rfl⟩ := Hierarchy.eq_addEdge_of_mem_expansion hc
    rfl
  rw [callGraph, Hierarchy.expandCalls_graph, CallGraph.node?_changes hn, hlayers]
  rfl

/-- Entry points take no node over, and layers are all that changes last. -/
theorem node?_analyse {code : Codebase} {s : Signature} {n : GraphNode}
    (hn : code.callGraph.node? s = some n) (classifier : Option Classifier) (keep : Bool) :
    ∃ layer, (code.analyse classifier keep).graph.node? s = some { n with layer } := by
  have hnode : (code.analyse classifier keep).graph.node? s =
      some (Build.layerNode classifier code n) := by
    rw [graph_analyse, CallGraph.node?_mapNodes, CallGraph.node?_insertNodes, hn]
    rfl
  refine ⟨(Build.layerNode classifier code n).layer, hnode.trans (congrArg some ?_)⟩
  cases classifier with
  | none => rfl
  | some c =>
      simp only [Build.layerNode, Build.classifyNode]
      split <;> rfl

def DeclaresMethod (code : Codebase) (owner method : String) : Prop :=
  ∃ c m, code.Declares c m ∧ c.name = owner ∧ m.name = method

def firstCall? (code : Codebase) (s : Signature) : Option CallSite :=
  code.callSites.find? fun site => site.resolution.signature == s

/-- Where a call finds a class, the first call of its signature finds the same, or takes the
signature for a text. -/
theorem Calls.exists_first {code : Codebase} {caller : Signature} {owner method : String}
    (hcall : code.Calls caller (.resolved owner method)) :
    ∃ first, code.firstCall? (Signature.join owner method) = some first ∧
      code.Calls first.caller first.resolution ∧
      (first.resolution = .resolved owner method ∨
        first.resolution = .heuristic (Signature.join owner method)) := by
  obtain ⟨first, hfirst⟩ :
      ∃ first, code.firstCall? (Signature.join owner method) = some first := by
    rw [← Option.isSome_iff_exists, firstCall?, List.find?_isSome]
    exact ⟨⟨caller, .resolved owner method⟩, mem_callSites.mpr hcall,
      by simp [Resolution.signature]⟩
  have hcalls := mem_callSites.mp (List.mem_of_find?_eq_some hfirst)
  have hsame : first.resolution.signature = Signature.join owner method := by
    simpa using List.find?_some hfirst
  refine ⟨first, hfirst, hcalls, ?_⟩
  obtain ⟨other, resolution⟩ := first
  cases resolution with
  | heuristic expression => exact .inr (congrArg Resolution.heuristic hsame)
  | resolved owner' method' =>
      obtain ⟨rfl, rfl⟩ := Signature.join_inj hcalls.not_mem_method hcall.not_mem_method hsame
      exact .inl rfl

theorem node?_directGraph_of_declares {code : Codebase} {owner method : String}
    (hplain : ∀ c m, code.Declares c m → '.' ∉ m.name.toList)
    (hdeclares : code.DeclaresMethod owner method) :
    ∃ n, (Build.directGraph code).node? (Signature.join owner method) = some n ∧
      n.className = owner := by
  obtain ⟨c, m, hdeclared, rfl, rfl⟩ := hdeclares
  obtain ⟨⟨d, k⟩, hfirst⟩ : ∃ decl, (code.declaredMethods.find? fun decl =>
      (Build.methodNode decl).signature == Signature.join c.name m.name) = some decl := by
    rw [← Option.isSome_iff_exists, List.find?_isSome]
    exact ⟨(c, m), mem_declaredMethods.mpr hdeclared, by simp [Build.methodNode]⟩
  have hother := mem_declaredMethods.mp (List.mem_of_find?_eq_some hfirst)
  have hsame : Signature.join d.name k.name = Signature.join c.name m.name := by
    simpa [Build.methodNode] using List.find?_some hfirst
  refine ⟨Build.methodNode (d, k), ?_, ?_⟩
  · rw [Build.node?_directGraph, hfirst]
    rfl
  · exact (Signature.join_inj (hplain d k hother) (hplain c m hdeclared) hsame).1

theorem node?_directGraph_of_not_declares {code : Codebase} {owner method : String}
    (hplain : ∀ c m, code.Declares c m → '.' ∉ m.name.toList) (hmethod : '.' ∉ method.toList)
    (hdeclares : ¬code.DeclaresMethod owner method) :
    (Build.directGraph code).node? (Signature.join owner method) =
      (code.firstCall? (Signature.join owner method)).map
        (Build.calleeNode (.ofCodebase code)) := by
  have hnone : (code.declaredMethods.find? fun decl =>
      (Build.methodNode decl).signature == Signature.join owner method) = none := by
    rw [List.find?_eq_none]
    rintro ⟨c, m⟩ hdecl hsame
    have hdeclared := mem_declaredMethods.mp hdecl
    obtain ⟨howner, hname⟩ := Signature.join_inj (hplain c m hdeclared) hmethod
      (by simpa [Build.methodNode] using hsame)
    exact hdeclares ⟨c, m, hdeclared, howner, hname⟩
  rw [Build.node?_directGraph, hnone]
  rfl

/-- What is known of the class of a callee. Its node has the class that a call has found, or none;
it has the class exactly if the method is declared, or if the first call of the signature has found
the class too. So whatever the order, it has the class where no call means the signature by its
text alone. -/
theorem callee_class_by_first_call {code : Codebase} {caller : Signature} {owner method : String}
    (hplain : ∀ c m, code.Declares c m → '.' ∉ m.name.toList)
    (hcall : code.Calls caller (.resolved owner method)) (classifier : Option Classifier)
    (keep : Bool) :
    ∃ node, (code.analyse classifier keep).graph.node? (Signature.join owner method) = some node ∧
      (node.className = owner ∨ node.className = unknownText) ∧
      (node.className = owner ↔
        owner = unknownText ∨ code.DeclaresMethod owner method ∨
        ∃ first ∈ code.firstCall? (Signature.join owner method),
          first.resolution = .resolved owner method) ∧
      ((∀ other, ¬code.Calls other (.heuristic (Signature.join owner method))) →
        node.className = owner) := by
  obtain ⟨first, hfirst, hcalls, hmeans⟩ := hcall.exists_first
  by_cases hdeclares : code.DeclaresMethod owner method
  · obtain ⟨n, hn, hclass⟩ := node?_directGraph_of_declares hplain hdeclares
    obtain ⟨layer, hnode⟩ := node?_analyse (node?_callGraph hn) classifier keep
    exact ⟨_, hnode, .inl hclass, iff_of_true hclass (.inr (.inl hdeclares)), fun _ => hclass⟩
  · have hn := node?_directGraph_of_not_declares hplain hcall.not_mem_method hdeclares
    rw [hfirst] at hn
    obtain ⟨layer, hnode⟩ := node?_analyse (node?_callGraph hn) classifier keep
    refine ⟨_, hnode, ?_⟩
    rcases hmeans with hresolved | htext
    · have hclass : (Build.calleeNode (.ofCodebase code) first).className = owner := by
        simp only [Build.calleeNode, hresolved]
      exact ⟨.inl hclass, iff_of_true hclass (.inr (.inr ⟨first, hfirst, hresolved⟩)),
        fun _ => hclass⟩
    · have hclass : (Build.calleeNode (.ofCodebase code) first).className = unknownText := by
        simp only [Build.calleeNode, htext, GraphNode.unknown]
      refine ⟨.inr hclass, ?_, fun hnone => absurd (htext ▸ hcalls) (hnone first.caller)⟩
      simp [hclass, hdeclares, hfirst, htext, eq_comm]

end Codebase

def archiver : ClassDecl where
  name := "Archiver"
  methods := [{ name := "run", calls := ["OrderDao.save()"] }]

def importer : ClassDecl where
  name := "Importer"
  fields := [⟨"dao", "OrderDao"⟩]
  methods := [{ name := "run", calls := ["dao.save()"] }]

def importerFirst : Codebase where
  classes := [importer, archiver]

def archiverFirst : Codebase where
  classes := [archiver, importer]

theorem undotted_of_declaredMethods {code : Codebase}
    (h : ∀ decl ∈ code.declaredMethods, '.' ∉ decl.2.name.toList) (c : ClassDecl) (m : MethodDecl)
    (hdeclared : code.Declares c m) : '.' ∉ m.name.toList :=
  h (c, m) (Codebase.mem_declaredMethods.mpr hdeclared)

theorem callee_class_by_first_call_importer :
    importerFirst.Calls "Importer.run" (.resolved "OrderDao" "save") ∧
      ∃ node, (importerFirst.analyse none false).graph.node? "OrderDao.save" = some node ∧
        node.className = "OrderDao" := by
  have hsite : (⟨"Importer.run", .resolved "OrderDao" "save"⟩ : CallSite) ∈
      importerFirst.callSites := by decide +kernel
  have hcall := Codebase.mem_callSites.mp hsite
  obtain ⟨node, hnode, -, hclass, -⟩ := Codebase.callee_class_by_first_call
    (undotted_of_declaredMethods (by decide +kernel)) hcall none false
  refine ⟨hcall, node, hnode, hclass.mpr (.inr (.inr ?_))⟩
  exact ⟨⟨"Importer.run", .resolved "OrderDao" "save"⟩, by decide +kernel, rfl⟩

theorem callee_class_hidden :
    ((∀ decl ∈ archiverFirst.declaredMethods, '.' ∉ decl.2.name.toList) ∧
      archiverFirst.Calls "Importer.run" (.resolved "OrderDao" "save") ∧
      (archiverFirst.analyse none false).graph.node? "OrderDao.save" =
        some (.unknown "OrderDao.save") ∧
      (archiverFirst.analyse (some .naming) false).graph.layerOf "OrderDao.save" = .unknown) ∧
    archiverFirst.classes.Perm importerFirst.classes ∧
    (importerFirst.analyse (some .naming) false).graph.layerOf "OrderDao.save" = .repository := by
  have hsite : (⟨"Importer.run", .resolved "OrderDao" "save"⟩ : CallSite) ∈
      archiverFirst.callSites := by decide +kernel
  have hcall := Codebase.mem_callSites.mp hsite
  exact ⟨⟨by decide +kernel, hcall, by decide +kernel, by decide +kernel⟩, by decide,
    by decide +kernel⟩

end CallTrace
