import CallTrace.Proofs.Build.Metadata
import CallTrace.Proofs.Classifier.Pruned
import CallTrace.Proofs.Hierarchy.Pruned

/-!
Builds of code without unnamed classes and methods. What has no name adds nothing to a build unless
it comes back another way: a class through an interface that it implements or through a call that
finds it by its package, a method through a classifier that tells it as an entry point.
-/

namespace CallTrace

namespace Hierarchy

/-- Two hierarchies tell the same of a method and its class. -/
structure AgreesAt (h k : Hierarchy) (owner method : String) : Prop where
  isInterface : h.isInterface owner = k.isInterface owner
  targets : h.targets owner method = k.targets owner method
  file : h.file? owner = k.file? owner

def AgreesOn (h k : Hierarchy) (site : CallSite) : Prop :=
  ∀ owner method, site.resolution = .resolved owner method → h.AgreesAt k owner method

variable {h k : Hierarchy}

theorem addCall_congr {site : CallSite} (hagree : h.AgreesOn k site) (g : CallGraph) :
    Build.addCall h g site = Build.addCall k g site := by
  obtain ⟨caller, resolution⟩ := site
  cases resolution with
  | heuristic expression => rfl
  | resolved owner method => simp only [Build.addCall, (hagree owner method rfl).file]

theorem expandCall_congr {site : CallSite} (hagree : h.AgreesOn k site)
    (state : CallGraph × DispatchReport) : h.expandCall state site = k.expandCall state site := by
  obtain ⟨caller, resolution⟩ := site
  cases resolution with
  | heuristic expression => rfl
  | resolved owner method =>
      simp only [expandCall, (hagree owner method rfl).isInterface,
        (hagree owner method rfl).targets]

theorem expandEntryPoint_congr {entry : EntryPoint}
    (hagree : h.AgreesAt k entry.className entry.method)
    (hmoved : ∀ target ∈ k.targets entry.className entry.method,
      h.retarget entry target = k.retarget entry target)
    (keep : Bool) (state : List EntryPoint × DispatchReport) :
    h.expandEntryPoint keep state entry = k.expandEntryPoint keep state entry := by
  have hmap := List.map_congr_left hmoved
  unfold expandEntryPoint
  rw [hagree.isInterface, hagree.targets]
  cases htargets : k.targets entry.className entry.method with
  | nil => rfl
  | cons target rest =>
      rw [htargets] at hmap
      simp only [hmap]

theorem owner?_of_mem_targets {entry : EntryPoint} {target : Signature}
    (htarget : target ∈ h.targets entry.className entry.method) :
    ∃ name ∈ h.implementors entry.className, Signature.owner? target = some name := by
  obtain ⟨-, name, hname, -, rfl⟩ := mem_targets.mp htarget
  have hplain : '.' ∉ entry.method.toList := Signature.not_mem_method entry.signature
  exact ⟨name, hname, Signature.owner?_join name hplain⟩

end Hierarchy

theorem Signature.mem_of_mem_method {s : Signature} {c : Char}
    (h : c ∈ (Signature.method s).toList) : c ∈ s.toList := by
  by_cases hdot : '.' ∈ s.toList
  · obtain ⟨owner, method, rfl, hmethod⟩ := exists_join hdot
    rw [method_join owner hmethod] at h
    simp [join, h]
  · rwa [Signature.method, Text.afterLastDot_of_not_mem hdot] at h

namespace Codebase

open Hierarchy

/-- What has no name does not come back: no class without one implements an interface, or is found
by a call, and no method without one is told as an entry point. -/
structure OmitsUnnamed (code : Codebase) (classifier : Option Classifier) : Prop where
  implementNone : code.UnnamedImplementNone
  asksNamed : code.AsksNamed
  tellsNamed : ∀ teller ∈ classifier, teller.TellsNamed code

variable {code : Codebase}

theorem agreesAt_pruned (h : code.UnnamedImplementNone) {owner method : String}
    (howner : code.FindsNamed owner) (hmethod : Text.isBlank method = false) :
    (ofCodebase code.pruned).AgreesAt (ofCodebase code) owner method where
  isInterface := isInterface_pruned h howner.findSimple?_pruned
  targets := targets_pruned h howner.findSimple?_pruned hmethod
  file := file?_pruned howner.findSimple?_pruned

theorem Calls.named (h : code.AsksNamed) {caller : Signature} {owner method : String}
    (hcalls : code.Calls caller (.resolved owner method)) :
    code.FindsNamed owner ∧ Text.isBlank method = false := by
  obtain ⟨c, m, hdeclared, -, raw, hraw, hresolve⟩ := hcalls
  refine ⟨h.owner hdeclared hraw hresolve, ?_⟩
  obtain ⟨hlast, hmethod, -⟩ := resolve_eq_resolved hresolve
  obtain ⟨b, hb⟩ : ∃ b, b ∈ method.toList := by
    apply List.exists_mem_of_ne_nil
    simpa using hmethod
  have hmem : b ∈ (CallText.parse raw).text.toList := Signature.mem_of_mem_method (hlast ▸ hb)
  exact Text.isBlank_eq_false_of_mem hb (CallText.not_isBlankChar_of_mem_parse hmem)

section Calls

variable (h : code.UnnamedImplementNone) (hasks : code.AsksNamed)

include h hasks

theorem agreesOn_pruned {site : CallSite} (hsite : site ∈ code.callSites) :
    (ofCodebase code.pruned).AgreesOn (ofCodebase code) site := by
  intro owner method hresolution
  have hcalls := mem_callSites.mp hsite
  rw [hresolution] at hcalls
  obtain ⟨howner, hmethod⟩ := hcalls.named hasks
  exact agreesAt_pruned h howner hmethod

theorem directGraph_pruned :
    Build.directGraph code.pruned = Build.directGraph code := by
  have hdeclared : Build.declaredGraph code.pruned = Build.declaredGraph code := by
    rw [Build.declaredGraph, declaredMethods_pruned, CallGraph.insertNodes, List.foldl_map]
    rfl
  rw [Build.directGraph, hasks.callSites_pruned, hdeclared]
  exact List.foldl_ext _ _ _ fun g site hsite => addCall_congr (agreesOn_pruned h hasks hsite) g

theorem expandCalls_pruned :
    (ofCodebase code.pruned).expandCalls (Build.directGraph code.pruned) code.pruned.callSites =
      (ofCodebase code).expandCalls (Build.directGraph code) code.callSites := by
  rw [hasks.callSites_pruned, directGraph_pruned h hasks]
  exact List.foldl_ext _ _ _ fun state site hsite =>
    expandCall_congr (agreesOn_pruned h hasks hsite) state

end Calls

theorem findsNamed_of_mem_targets (h : code.UnnamedImplementNone) {entry : EntryPoint}
    {target : Signature}
    (htarget : target ∈ (ofCodebase code).targets entry.className entry.method) :
    code.FindsNamed ((Signature.owner? target).getD target) := by
  obtain ⟨name, hname, howner⟩ := owner?_of_mem_targets htarget
  obtain ⟨c, hc, rfl, key, -, himplements⟩ := mem_implementors.mp hname
  rw [howner]
  exact findsNamed_of_mem hc (h.named hc himplements)

theorem expandEntryPoints_pruned (h : code.UnnamedImplementNone) {declared : List EntryPoint}
    (howner : ∀ entry ∈ declared, code.FindsNamed entry.className)
    (hmethod : ∀ entry ∈ declared, Text.isBlank entry.method = false) (keep : Bool)
    (report : DispatchReport) :
    (ofCodebase code.pruned).expandEntryPoints keep declared report =
      (ofCodebase code).expandEntryPoints keep declared report := by
  refine List.foldl_ext _ _ _ fun state entry hentry => ?_
  refine expandEntryPoint_congr
    (agreesAt_pruned h (howner entry hentry) (hmethod entry hentry)) ?_ keep state
  intro target htarget
  simp only [retarget, file?_pruned (findsNamed_of_mem_targets h htarget).findSimple?_pruned]

theorem findsNamed_of_mem_expandEntryPoints (h : code.UnnamedImplementNone)
    {declared : List EntryPoint} (howner : ∀ entry ∈ declared, code.FindsNamed entry.className)
    {keep : Bool} {report : DispatchReport} {entry : EntryPoint}
    (hentry : entry ∈ ((ofCodebase code).expandEntryPoints keep declared report).1) :
    code.FindsNamed entry.className := by
  obtain ⟨told, htold, rfl | ⟨target, htarget, rfl⟩⟩ := comesFrom_expandEntryPoints hentry
  · exact howner entry htold
  · exact findsNamed_of_mem_targets h htarget

theorem allNodes_findsNamed (hasks : code.AsksNamed) :
    code.callGraph.AllNodes fun n => n.className = unknownText ∨ code.FindsNamed n.className := by
  refine allNodes_callGraph ?_ ?_ fun _ => .inl rfl
  · rintro ⟨c, m⟩ hdecl
    have hdeclared := mem_declaredMethods.mp hdecl
    exact .inr (findsNamed_of_mem hdeclared.mem_classes hdeclared.class_named)
  · rintro ⟨caller, resolution⟩ hsite
    cases resolution with
    | heuristic expression => exact .inl rfl
    | resolved owner method => exact .inr ((mem_callSites.mp hsite).named hasks).1

theorem layerNode_pruned {classifier : Option Classifier}
    (hclassifier : ∀ teller ∈ classifier, teller.AsksNamed code) {n : GraphNode}
    (hn : n.className = unknownText ∨ code.FindsNamed n.className) :
    Build.layerNode classifier code.pruned n = Build.layerNode classifier code n := by
  cases classifier with
  | none => rfl
  | some teller =>
      simp only [Build.layerNode, Build.classifyNode]
      split
      · rfl
      · rename_i hknown
        have hfound := hn.resolve_left (by simpa using hknown)
        rw [hfound.find?_pruned, (hclassifier teller rfl).layerOf]

section OmitsUnnamed

variable {classifier : Option Classifier} (h : code.OmitsUnnamed classifier)
  (hclassifier : ∀ teller ∈ classifier, teller.AsksNamed code)

include h hclassifier

theorem OmitsUnnamed.toldEntryPoints_pruned :
    code.pruned.toldEntryPoints classifier = code.toldEntryPoints classifier := by
  cases classifier with
  | none => rfl
  | some teller => exact (hclassifier teller rfl).entryPoints (h.tellsNamed teller rfl)

omit h in
theorem findsNamed_of_mem_toldEntryPoints {entry : EntryPoint}
    (hentry : entry ∈ code.toldEntryPoints classifier) : code.FindsNamed entry.className := by
  obtain ⟨teller, hteller, htold⟩ := mem_toldEntryPoints.mp hentry
  obtain ⟨c, hc, hname, hsame⟩ := (hclassifier teller hteller).owner entry htold
  rw [hsame]
  exact findsNamed_of_mem hc hname

theorem OmitsUnnamed.entryPoints_pruned (keep : Bool) :
    (code.pruned.analyse classifier keep).entryPoints =
      (code.analyse classifier keep).entryPoints := by
  have hexpand := expandEntryPoints_pruned h.implementNone
    (fun _ => findsNamed_of_mem_toldEntryPoints hclassifier)
    (fun entry hentry => by
      obtain ⟨teller, hteller, htold⟩ := mem_toldEntryPoints.mp hentry
      exact h.tellsNamed teller hteller entry htold)
    keep ((ofCodebase code).expandCalls (Build.directGraph code) code.callSites).2
  rw [entryPoints_analyse, entryPoints_analyse, h.toldEntryPoints_pruned hclassifier,
    expandCalls_pruned h.implementNone h.asksNamed, hexpand]

theorem OmitsUnnamed.graph_pruned (keep : Bool) :
    (code.pruned.analyse classifier keep).graph = (code.analyse classifier keep).graph := by
  have hcalls : code.pruned.callGraph = code.callGraph :=
    congrArg Prod.fst (expandCalls_pruned h.implementNone h.asksNamed)
  have hnodes : (code.callGraph.insertNodes Build.entryNode
      (code.analyse classifier keep).entryPoints).AllNodes fun n =>
        n.className = unknownText ∨ code.FindsNamed n.className := by
    apply List.foldlRecOn (motive := fun g : CallGraph =>
      g.AllNodes fun n => n.className = unknownText ∨ code.FindsNamed n.className)
    · exact allNodes_findsNamed h.asksNamed
    · intro g hg entry hentry
      rw [entryPoints_analyse] at hentry
      exact hg.insertNode (.inr (findsNamed_of_mem_expandEntryPoints h.implementNone
        (fun _ => findsNamed_of_mem_toldEntryPoints hclassifier) hentry))
  rw [graph_analyse, graph_analyse, h.entryPoints_pruned hclassifier keep, hcalls]
  exact CallGraph.mapNodes_congr _ fun n hn => layerNode_pruned hclassifier (hnodes n hn)

end OmitsUnnamed

/-- Where what has no name does not come back, it adds nothing to a build: under each classifier, a
build of the code without it has the same graph, with the same nodes, calls and layers, and the same
entry points. -/
theorem analyse_pruned (code : Codebase) (choice : ClassifierChoice) (keep : Bool)
    (h : code.OmitsUnnamed choice.classifier?) :
    (code.pruned.analyse choice.classifier? keep).graph =
      (code.analyse choice.classifier? keep).graph ∧
    (code.pruned.analyse choice.classifier? keep).entryPoints =
      (code.analyse choice.classifier? keep).entryPoints := by
  have hclassifier : ∀ teller ∈ choice.classifier?, teller.AsksNamed code :=
    fun _ hteller => ClassifierChoice.asksNamed hteller code
  exact ⟨h.graph_pruned hclassifier keep, h.entryPoints_pruned hclassifier keep⟩

end Codebase

/-- A route to a method of an interface, with one implementation. Beside them stand methods without
a name and two classes without one, of which the second says that it implements the interface. -/
def unnamedOrders : Codebase where
  classes :=
    [{ name := "OrderController", annotations := ["@RestController"],
       fields := [⟨"orders", "com.acme.Orders"⟩],
       methods :=
         [{ name := "list", annotations := ["@GetMapping(\"/orders\")"],
            calls := ["orders.find()"] },
          { name := "", calls := ["orders.drop()"] }] },
     { name := "Orders", package := "com.acme", isInterface := true,
       methods := [{ name := "find" }] },
     { name := "JpaOrders", interfaces := ["Orders"],
       methods := [{ name := "find" }, { name := " ", calls := ["find()"] }] },
     { name := " ", package := "com.acme", methods := [{ name := "find", calls := ["drop()"] }] },
     { name := "", interfaces := ["Orders"], methods := [{ name := "find" }] }]

theorem analyse_pruned_orders :
    unnamedOrders.OmitsUnnamed ClassifierChoice.composite.classifier? ∧
      unnamedOrders.pruned.classes.length < unnamedOrders.classes.length ∧
      (unnamedOrders.pruned.analyse ClassifierChoice.composite.classifier? true).graph =
        (unnamedOrders.analyse ClassifierChoice.composite.classifier? true).graph ∧
      (unnamedOrders.pruned.analyse ClassifierChoice.composite.classifier? true).entryPoints =
        (unnamedOrders.analyse ClassifierChoice.composite.classifier? true).entryPoints := by
  have homits : unnamedOrders.OmitsUnnamed ClassifierChoice.composite.classifier? := by
    refine ⟨by decide +kernel, by decide +kernel, ?_⟩
    intro teller hteller
    cases hteller
    decide +kernel
  exact ⟨homits, by decide +kernel, Codebase.analyse_pruned unnamedOrders .composite true homits⟩

def blankImplementation : Codebase where
  classes :=
    [{ name := "Orders", isInterface := true, methods := [{ name := "find" }] },
     { name := " ", interfaces := ["Orders"], methods := [{ name := "find" }] },
     { name := "Billing", fields := [⟨"orders", "Orders"⟩],
       methods := [{ name := "run", calls := ["orders.find()"] }] }]

def emptyInPackage : Codebase where
  classes :=
    [{ name := "", package := "com", methods := [{ name := "find" }] },
     { name := "Billing", methods := [{ name := "run", calls := ["com..find()"] }] }]

def emptyRoute : Codebase where
  classes :=
    [{ name := "OrderApi",
       methods := [{ name := "", annotations := ["@GetMapping(\"/orders\")"] }] }]

def blankHandler : Codebase where
  classes := [{ name := "OrderController", methods := [{ name := " " }] }]

theorem unnamed_come_back :
    ((blankImplementation.analyse none false).graph.hasEdge "Billing.run" " .find" = true ∧
      (blankImplementation.pruned.analyse none false).graph.hasNode " .find" = false) ∧
    ((emptyInPackage.analyse none false).graph.hasEdge "Billing.run" ".find" = true ∧
      (emptyInPackage.pruned.analyse none false).graph.hasNode ".find" = false) ∧
    ((emptyRoute.analyse ClassifierChoice.spring.classifier? false).entryPoints =
        [.ofMethod "GET" "/orders" "OrderApi" "" ""] ∧
      (emptyRoute.pruned.analyse ClassifierChoice.spring.classifier? false).entryPoints = []) ∧
    ((blankHandler.analyse ClassifierChoice.naming.classifier? false).entryPoints =
        [.ofMethod "HANDLER" "" "OrderController" " " ""] ∧
      (blankHandler.pruned.analyse ClassifierChoice.naming.classifier? false).entryPoints =
        []) := by
  decide +kernel

end CallTrace
