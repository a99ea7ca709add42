import CallTrace.Engine.Report
import CallTrace.Proofs.Build.EntryPoints
import CallTrace.Proofs.Build.Padding
import CallTrace.Proofs.Engine.Loading
import CallTrace.Proofs.FactSource.Collection

/-!
One tree and all trees. All trees are asked for by entry points, one tree by a signature that is
trimmed first. The two answers agree where the signature of the entry point is trimmed already, and
nowhere else.
-/

namespace CallTrace

open Json

namespace ClassDecl

@[simp] theorem name_withFile (c : ClassDecl) (file : String) :
    (c.withFile file).name = c.name := by
  unfold withFile
  split <;> rfl

@[simp] theorem methods_withFile (c : ClassDecl) (file : String) :
    (c.withFile file).methods = c.methods := by
  unfold withFile
  split <;> rfl

end ClassDecl

namespace FactsDocument

def declared (document : FactsDocument) : Codebase :=
  ⟨document.files.flatMap fun entry => entry.classes⟩

theorem exists_of_factsFor {document : FactsDocument} {file : String} {classes : List ClassDecl}
    (h : document.factsFor file = .ok classes) {c : ClassDecl} (hc : c ∈ classes) :
    ∃ d ∈ document.declared.classes, ∃ path, c = d.withFile path := by
  unfold factsFor FactIndex.factsFor at h
  split at h
  · cases h
  · rename_i entry hentry
    rw [entry?_index] at hentry
    split at h
    · cases h
    · cases h
      obtain ⟨d, hd, rfl⟩ := List.mem_map.mp hc
      exact ⟨d, List.mem_flatMap.mpr ⟨entry, List.mem_of_find?_eq_some hentry, hd⟩, _, rfl⟩

theorem unpadded_collected {document : FactsDocument} (h : document.declared.Unpadded) :
    document.collected.code.Unpadded := by
  unfold collected
  apply List.foldlRecOn (motive := fun collected : Collected => collected.code.Unpadded)
  · intro c hc
    cases hc
  · intro collected hcollected file _
    unfold FactSource.collectFile
    split
    · rename_i classes hclasses
      intro c hc
      rcases List.mem_append.mp hc with hbefore | hadded
      · exact hcollected c hbefore
      · obtain ⟨given, hgiven, rfl⟩ := List.mem_map.mp hadded
        obtain ⟨d, hd, path, rfl⟩ := exists_of_factsFor hclasses hgiven
        simpa using h d hd
    · exact hcollected

end FactsDocument

namespace Analysis

def Related (a : Analysis) (s : Signature) : Prop :=
  ∃ relation ∈ a.relations, s = relation.caller ∨ s = relation.callee

/-- Entry points with distinct signatures, all of them in a well-formed graph. -/
structure Consistent (a : Analysis) : Prop where
  wellFormed : a.graph.WellFormed
  distinct : EntryPoint.Distinct a.entryPoints
  hasEntry : ∀ entry ∈ a.entryPoints, a.graph.hasNode entry.signature = true

theorem exists_edge_of_related {a : Analysis} {s : Signature} (h : a.Related s) :
    ∃ u v, a.graph.hasEdge u v = true ∧ (s = u ∨ s = v) := by
  obtain ⟨⟨u, v⟩, hrelation, hs⟩ := h
  exact ⟨u, v, CallGraph.hasEdge_iff.mpr (mem_sortBy.mp hrelation), hs⟩

theorem Consistent.hasNode_of_related {a : Analysis} (ha : a.Consistent) {s : Signature}
    (hs : a.Related s) : a.graph.hasNode s = true := by
  obtain ⟨u, v, hedge, rfl | rfl⟩ := exists_edge_of_related hs
  · exact ha.wellFormed.hasCaller hedge
  · exact ha.wellFormed.hasCallee hedge

end Analysis

theorem Collected.consistent_analyse (collected : Collected) (classifier : Option Classifier)
    (keep : Bool) : (collected.analyse classifier keep).Consistent where
  wellFormed := collected.code.wellFormed_analyse classifier keep
  distinct := collected.code.distinct_analyse classifier keep
  hasEntry _ hentry := collected.code.hasNode_entry_analyse hentry

theorem Codebase.Unpadded.trim_related {collected : Collected} (h : collected.code.Unpadded)
    {classifier : Option Classifier} {keep : Bool} {s : Signature}
    (hs : (collected.analyse classifier keep).Related s) : Text.trim s = s := by
  obtain ⟨u, v, hedge, hend⟩ := Analysis.exists_edge_of_related hs
  have htrim := h.trim_edge ((collected.code.hasEdge_analyse classifier keep u v).symm.trans hedge)
  rcases hend with rfl | rfl
  · exact htrim.1
  · exact htrim.2

theorem Analysis.tree_unknown {a : Analysis} {depth : Nat} (hdepth : depth ≤ maxTreeDepth)
    {s : Signature} (hs : a.graph.hasNode s = false) :
    a.tree s depth = .error (.unknownSignature s) := by
  rw [tree, checkDepth_eq_ok hdepth]
  exact (CallGraph.trace_eq_error_iff s _ (lt_depthBound hdepth)).mpr hs

theorem CallTree.signature_of_report {depth : Nat} {t u : CallTree}
    (h : t.report depth = u.report depth) : t.signature = u.signature := by
  have hfields := List.cons.inj (Value.obj.inj h)
  exact Value.str.inj (Prod.mk.inj hfields.1).2

namespace Engine

theorem tree_eq_ok {engine : Engine} {s : String} {depth : Option Nat} {t : CallTree} :
    engine.tree s depth = .ok t ↔
      engine.analysis.tree (Text.trim s) (engine.depthOr depth) = .ok t :=
  mapError_eq_ok

variable {engine : Engine} {depth : Option Nat} (hdepth : engine.depthOr depth ≤ maxTreeDepth)

include hdepth

/-- A tree starts at the signature that was asked for, without the blanks around it. -/
theorem signature_of_tree {s : String} {t : CallTree} (h : engine.tree s depth = .ok t) :
    t.signature = Text.trim s := by
  rw [tree_eq_ok] at h
  cases hs : engine.analysis.graph.hasNode (Text.trim s) with
  | false =>
      rw [Analysis.tree_unknown hdepth hs] at h
      cases h
  | true =>
      rw [Analysis.tree_eq hdepth hs] at h
      cases h
      exact CallGraph.unfold_signature ..

theorem tree_at_node_iff {s : Signature} (hs : engine.analysis.graph.hasNode s = true) :
    (∃ t, engine.tree s depth = .ok t ∧ t.signature = s) ↔ Text.trim s = s := by
  constructor
  · rintro ⟨t, ht, hsignature⟩
    rw [← signature_of_tree hdepth ht, hsignature]
  · intro htrim
    simp only [tree_eq_ok, htrim, Analysis.tree_eq hdepth hs]
    exact ⟨_, rfl, CallGraph.unfold_signature ..⟩

variable (ha : engine.analysis.Consistent)

include ha

theorem treeReport_entry_iff {entry : EntryPoint} (hentry : entry ∈ engine.analysis.entryPoints) :
    engine.treeReport entry.signature depth =
        .ok ((engine.analysis.graph.rooted (engine.depthOr depth) entry).report
          (engine.depthOr depth)) ↔
      Text.trim entry.signature = entry.signature := by
  rw [treeReport, map_eq_ok]
  constructor
  · rintro ⟨t, ht, hreport⟩
    rw [← signature_of_tree hdepth ht, CallTree.signature_of_report hreport]
    exact CallGraph.unfold_signature ..
  · intro htrim
    refine ⟨_, ?_, rfl⟩
    rw [tree_eq_ok, htrim,
      Analysis.tree_entry ha.distinct hdepth hentry (ha.hasEntry entry hentry)]

theorem treesReport_eq :
    engine.treesReport depth =
      .ok (.obj
        [("max_depth", .num (engine.depthOr depth)),
         ("trees", .arr (engine.analysis.entryPoints.map fun entry =>
            (engine.analysis.graph.rooted (engine.depthOr depth) entry).report
              (engine.depthOr depth)))]) := by
  rw [treesReport, trees, Analysis.trees_eq hdepth ha.hasEntry]
  simp only [Except.mapError, Except.map, Value.list, List.map_map]
  rfl

end Engine

/-- In an engine that was loaded from facts, one answer gives all trees: the report of one tree for
each entry point, in order. Asked for its signature alone, the engine gives the same report if and
only if that signature is trimmed; and for every caller and callee it gives a tree that starts there
if and only if the signature is trimmed. Where no name in the facts has blanks at its ends, all of
them are. -/
theorem Engine.trees_answered_alone {files : Files} {path : String} {settings : Settings}
    {engine : Engine} (hload : Engine.loadFacts files path settings = .ok engine)
    {depth : Option Nat} (hdepth : engine.depthOr depth ≤ maxTreeDepth) :
    ∃ document, readFacts files path = .ok document ∧
      (∃ answers,
        engine.treesReport depth =
          .ok (.obj [("max_depth", .num (engine.depthOr depth)), ("trees", .arr answers)]) ∧
        List.Forall₂
          (fun entry answer =>
            (∃ tree : CallTree, answer = tree.report (engine.depthOr depth) ∧
              tree.signature = entry.signature ∧ tree.entryPoint = some entry) ∧
            (engine.treeReport entry.signature depth = .ok answer ↔
              Text.trim entry.signature = entry.signature))
          engine.analysis.entryPoints answers) ∧
      (∀ s, engine.analysis.Related s →
        ((∃ tree, engine.tree s depth = .ok tree ∧ tree.signature = s) ↔ Text.trim s = s)) ∧
      (document.declared.Unpadded →
        (∀ entry ∈ engine.analysis.entryPoints, Text.trim entry.signature = entry.signature) ∧
        ∀ s, engine.analysis.Related s → Text.trim s = s) := by
  obtain ⟨analysis, hanalysis, rfl⟩ := loadFacts_eq_ok.mp hload
  obtain ⟨-, document, hread, rfl⟩ := analyseFacts_eq_ok.mp hanalysis
  have ha := document.collected.consistent_analyse settings.classifier.classifier?
    settings.includeInterfaceEntryPoints
  refine ⟨document, hread, ⟨_, treesReport_eq hdepth ha, ?_⟩, ?_, ?_⟩
  · rw [List.forall₂_map_right_iff, List.forall₂_same]
    intro entry hentry
    exact ⟨⟨_, rfl, CallGraph.unfold_signature .., rfl⟩, treeReport_entry_iff hdepth ha hentry⟩
  · intro s hs
    exact tree_at_node_iff hdepth (ha.hasNode_of_related hs)
  · intro hunpadded
    have hcode := FactsDocument.unpadded_collected hunpadded
    exact ⟨fun entry hentry => hcode.trim_entry hentry, fun s hs => hcode.trim_related hs⟩

def orderApi : ClassDecl where
  name := "OrderApi"
  methods :=
    [{ name := "list ", annotations := ["@GetMapping(\"/orders\")"], calls := ["audit()"] },
     { name := "show", annotations := ["@GetMapping(\"/order\")"], calls := ["audit()"] }]

def orderEngine : Engine :=
  .ofFacts "OrderApi.java" [orderApi]

theorem loadFacts_orderApi :
    Engine.loadFacts (.ofFacts "OrderApi.java" [orderApi]) "facts.json" {} = .ok orderEngine :=
  Engine.loadFacts_ofFacts (by decide +kernel)

theorem entryPoints_orderEngine :
    orderEngine.analysis.entryPoints =
      [.ofMethod "GET" "/orders" "OrderApi" "list " "OrderApi.java",
       .ofMethod "GET" "/order" "OrderApi" "show" "OrderApi.java"] := by
  decide +kernel

theorem relations_orderEngine :
    orderEngine.analysis.relations =
      [⟨"OrderApi.list ", "OrderApi.audit"⟩, ⟨"OrderApi.show", "OrderApi.audit"⟩] := by
  decide +kernel

theorem trees_answered_alone_orders :
    ∃ listed shown,
      orderEngine.treesReport (some 1) =
        .ok (.obj [("max_depth", .num 1), ("trees", .arr [listed, shown])]) ∧
      orderEngine.treeReport "OrderApi.show" (some 1) = .ok shown ∧
      orderEngine.treeReport "OrderApi.list " (some 1) ≠ .ok listed ∧
      ∃ tree, orderEngine.tree "OrderApi.audit" (some 1) = .ok tree ∧
        tree.signature = "OrderApi.audit" := by
  have hdepth : orderEngine.depthOr (some 1) ≤ maxTreeDepth := by decide
  obtain ⟨document, -, ⟨answers, hanswers, heach⟩, hrelated, -⟩ :=
    Engine.trees_answered_alone loadFacts_orderApi hdepth
  rw [entryPoints_orderEngine] at heach
  obtain _ | ⟨⟨-, hlisted⟩, _ | ⟨⟨-, hshown⟩, hnone⟩⟩ := heach
  cases hnone
  have haudit : orderEngine.analysis.Related "OrderApi.audit" :=
    ⟨⟨"OrderApi.show", "OrderApi.audit"⟩, by rw [relations_orderEngine]; simp, .inr rfl⟩
  refine ⟨_, _, hanswers, hshown.mpr (by decide), ?_, (hrelated _ haudit).mpr (by decide)⟩
  intro hsame
  exact absurd (hlisted.mp hsame) (by decide)

/-- An entry point, which is also among the relations, but has no tree of its own: it is asked for
without the blank, and that is no method. -/
theorem padded_entry_refused :
    Engine.loadFacts (.ofFacts "OrderApi.java" [orderApi]) "facts.json" {} = .ok orderEngine ∧
    (∃ entry ∈ orderEngine.analysis.entryPoints, entry.signature = "OrderApi.list ") ∧
    orderEngine.analysis.Related "OrderApi.list " ∧
    orderEngine.treeReport "OrderApi.list " (some 1) =
      .error (.query (.unknownSignature "OrderApi.list")) ∧
    ∃ answers, orderEngine.treesReport (some 1) =
      .ok (.obj [("max_depth", .num 1), ("trees", .arr answers)]) ∧ answers.length = 2 := by
  have hdepth : orderEngine.depthOr (some 1) ≤ maxTreeDepth := by decide
  have ha : orderEngine.analysis.Consistent := Collected.consistent_analyse ..
  refine ⟨loadFacts_orderApi, ?_, ?_, ?_, _, Engine.treesReport_eq hdepth ha, ?_⟩
  · rw [entryPoints_orderEngine]
    exact ⟨_, List.mem_cons_self, by decide⟩
  · exact ⟨⟨"OrderApi.list ", "OrderApi.audit"⟩, by rw [relations_orderEngine]; simp, .inl rfl⟩
  · have htrim : Text.trim "OrderApi.list " = "OrderApi.list" := by decide
    have hunknown : orderEngine.analysis.graph.hasNode "OrderApi.list" = false := by
      decide +kernel
    rw [Engine.treeReport, Engine.tree, htrim, Analysis.tree_unknown hdepth hunknown]
    rfl
  · rw [List.length_map, entryPoints_orderEngine]
    rfl

end CallTrace
