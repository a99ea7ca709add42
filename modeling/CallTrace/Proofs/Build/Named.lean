import CallTrace.Proofs.Analysis.Trees
import CallTrace.Proofs.Build.Passes
import CallTrace.Proofs.Dispatch.EntryPoints
import CallTrace.Proofs.Resolution.CallText
import CallTrace.Settings

/-!
No pass of a build brings in a blank signature: methods and targets carry the dot of their
signature, and what is left of a call that was read has no blank character.
-/

namespace CallTrace

namespace Text

theorem isBlank_eq_false_of_mem {s : String} {c : Char} (hmem : c ∈ s.toList)
    (hc : isBlankChar c = false) : isBlank s = false := by
  rw [isBlank, List.all_eq_false]
  exact ⟨c, hmem, by simp [hc]⟩

end Text

@[simp] theorem Signature.isBlank_join (owner method : String) :
    Text.isBlank (join owner method) = false := by
  apply Text.isBlank_eq_false_of_mem (c := '.')
  · simp [join]
  · decide

namespace CallText

theorem isBlank_parse {raw : String} (h : (parse raw).text ≠ "") :
    Text.isBlank (parse raw).text = false := by
  obtain ⟨c, hc⟩ : ∃ c, c ∈ (parse raw).text.toList := by
    apply List.exists_mem_of_ne_nil
    simpa using h
  exact Text.isBlank_eq_false_of_mem hc (not_isBlankChar_of_mem_parse hc)

end CallText

theorem Codebase.isBlank_resolve {code : Codebase} {scope : Scope} {raw : String}
    {resolution : Resolution} (h : code.resolve scope raw = some resolution) :
    Text.isBlank resolution.signature = false := by
  unfold resolve at h
  dsimp only at h
  split at h
  · simp at h
  · rename_i htext
    split at h
    · obtain rfl := Option.some.inj h
      rw [Resolution.signature]
      exact CallText.isBlank_parse (by simpa using htext)
    · split at h
      · obtain rfl := Option.some.inj h
        exact Signature.isBlank_join ..
      · split at h
        · obtain rfl := Option.some.inj h
          exact Signature.isBlank_join ..
        · obtain rfl := Option.some.inj h
          exact Signature.isBlank_join ..

theorem Codebase.isBlank_callSite {code : Codebase} {site : CallSite}
    (h : site ∈ code.callSites) :
    Text.isBlank site.caller = false ∧ Text.isBlank site.resolution.signature = false := by
  simp only [callSites, rawCalls, List.mem_filterMap, List.mem_flatMap] at h
  obtain ⟨call, ⟨⟨c, m⟩, -, hcall⟩, hsite⟩ := h
  simp only [callsOf, List.mem_map] at hcall
  obtain ⟨raw, -, rfl⟩ := hcall
  obtain ⟨resolution, hresolve, rfl⟩ := Option.map_eq_some_iff.mp hsite
  dsimp only at hresolve ⊢
  exact ⟨Signature.isBlank_join .., isBlank_resolve hresolve⟩

namespace CallGraph

theorem Legible.insertNode {g : CallGraph} (hg : g.Legible) {node : GraphNode}
    (hnode : Text.isBlank node.signature = false) : (g.insertNode node).Legible where
  toWellFormed := hg.toWellFormed.insertNode node
  named s hs := by
    rw [hasNode_insertNode, Bool.or_eq_true, decide_eq_true_eq] at hs
    rcases hs with hs | rfl
    · exact hg.named s hs
    · exact hnode

theorem Legible.link {g : CallGraph} (hg : g.Legible) {u v : Signature}
    (hu : Text.isBlank u = false) (hv : Text.isBlank v = false) : (g.link u v).Legible where
  toWellFormed := hg.toWellFormed.link u v
  named s hs := by
    simp only [hasNode_link, Bool.or_eq_true, decide_eq_true_eq] at hs
    rcases hs with (hs | rfl) | rfl
    · exact hg.named s hs
    · exact hu
    · exact hv

theorem Legible.mapNodes {g : CallGraph} (hg : g.Legible) {f : GraphNode → GraphNode}
    (hf : ∀ n, (f n).signature = n.signature) : (g.mapNodes f hf).Legible where
  toWellFormed := hg.toWellFormed.mapNodes hf
  named s hs := by
    rw [hasNode_mapNodes] at hs
    exact hg.named s hs

theorem Legible.insertNodes {g : CallGraph} (hg : g.Legible) {toNode : α → GraphNode}
    {items : List α} (hitems : ∀ item ∈ items, Text.isBlank (toNode item).signature = false) :
    (g.insertNodes toNode items).Legible :=
  List.foldlRecOn _ _ hg fun _ hg item hitem => hg.insertNode (hitems item hitem)

end CallGraph

namespace Build

theorem legible_addCall {h : Hierarchy} {g : CallGraph} (hg : g.Legible) {site : CallSite}
    (hcaller : Text.isBlank site.caller = false)
    (hcallee : Text.isBlank site.resolution.signature = false) :
    (addCall h g site).Legible := by
  unfold addCall
  split
  · exact (hg.insertNode hcallee).link hcaller hcallee
  · exact hg.link hcaller hcallee

theorem legible_directGraph (code : Codebase) : (directGraph code).Legible := by
  have hempty : CallGraph.empty.Legible :=
    { CallGraph.wellFormed_empty with named := by simp }
  refine List.foldlRecOn _ _ (hempty.insertNodes fun decl _ => Signature.isBlank_join ..) ?_
  intro g hg site hsite
  obtain ⟨hcaller, hcallee⟩ := Codebase.isBlank_callSite hsite
  exact legible_addCall hg hcaller hcallee

end Build

namespace Hierarchy

theorem isBlank_target {h : Hierarchy} {interface method : String} {target : Signature}
    (htarget : target ∈ h.targets interface method) : Text.isBlank target = false := by
  unfold targets at htarget
  split at htarget
  · obtain ⟨c, -, rfl⟩ := List.mem_map.mp htarget
    exact Signature.isBlank_join ..
  · simp at htarget

theorem legible_linkTargets {caller : Signature} (hcaller : Text.isBlank caller = false)
    {targets : List Signature} (htargets : ∀ target ∈ targets, Text.isBlank target = false)
    {g : CallGraph} (hg : g.Legible) (report : DispatchReport) :
    (linkTargets caller targets (g, report)).1.Legible := by
  induction targets generalizing g report with
  | nil => exact hg
  | cons target rest ih =>
      have hlink : (g.link caller target).Legible :=
        hg.link hcaller (htargets target List.mem_cons_self)
      have hrest : ∀ t ∈ rest, Text.isBlank t = false :=
        fun t ht => htargets t (List.mem_cons_of_mem _ ht)
      unfold linkTargets
      unfold CallGraph.link at hlink
      split <;> rename_i heq <;> rw [heq] at hlink <;> exact ih hrest hlink _

theorem legible_expandCall {h : Hierarchy} {state : CallGraph × DispatchReport}
    (hstate : state.1.Legible) {site : CallSite} (hcaller : Text.isBlank site.caller = false) :
    (h.expandCall state site).1.Legible := by
  unfold expandCall
  split
  · exact hstate
  · split
    · dsimp only
      split
      · exact hstate
      · exact legible_linkTargets hcaller (fun target => isBlank_target) hstate _
    · exact hstate

theorem legible_expandCalls {h : Hierarchy} {code : Codebase} {g : CallGraph}
    (hg : g.Legible) : (h.expandCalls g code.callSites).1.Legible := by
  unfold expandCalls
  apply List.foldlRecOn (motive := fun state : CallGraph × DispatchReport => state.1.Legible)
  · exact hg
  · intro state hstate site hsite
    exact legible_expandCall hstate (Codebase.isBlank_callSite hsite).1

end Hierarchy

def EntryPoint.AllNamed (entries : List EntryPoint) : Prop :=
  ∀ entry ∈ entries, Text.isBlank entry.signature = false

theorem Hierarchy.allNamed_expandEntryPoints {h : Hierarchy} {keep : Bool}
    {declared : List EntryPoint} (hdeclared : EntryPoint.AllNamed declared)
    (report : DispatchReport) :
    EntryPoint.AllNamed (h.expandEntryPoints keep declared report).1 := by
  intro entry hentry
  obtain ⟨told, htold, rfl | ⟨target, htarget, rfl⟩⟩ := comesFrom_expandEntryPoints hentry
  · exact hdeclared entry htold
  · exact isBlank_target htarget

namespace Classifier

def NamesEntries (classifier : Classifier) (code : Codebase) : Prop :=
  EntryPoint.AllNamed (classifier.entryPoints code)

theorem namesEntries_spring (code : Codebase) : spring.NamesEntries code := by
  intro entry hentry
  obtain ⟨c, -, hentry⟩ := List.mem_flatMap.mp hentry
  unfold Spring.classEntryPoints at hentry
  split at hentry
  · simp at hentry
  · obtain ⟨m, -, hroute⟩ := List.mem_filterMap.mp hentry
    obtain ⟨⟨kind, path⟩, -, rfl⟩ := Option.map_eq_some_iff.mp hroute
    exact Signature.isBlank_join ..

theorem namesEntries_naming (code : Codebase) : naming.NamesEntries code := by
  intro entry hentry
  obtain ⟨c, -, hentry⟩ := List.mem_flatMap.mp hentry
  unfold Naming.classEntryPoints at hentry
  split at hentry
  · simp at hentry
  · split at hentry
    · obtain ⟨m, -, rfl⟩ := List.mem_map.mp hentry
      exact Signature.isBlank_join ..
    · split at hentry
      · obtain ⟨m, -, rfl⟩ := List.mem_map.mp hentry
        exact Signature.isBlank_join ..
      · simp at hentry

theorem exists_member_of_mem_composite {members : List Classifier} {code : Codebase}
    {entry : EntryPoint} (hentry : entry ∈ (composite members).entryPoints code) :
    ∃ member ∈ members, entry ∈ member.entryPoints code :=
  List.mem_flatMap.mp (EntryPoint.mem_of_mem_firstBySignature hentry)

theorem namesEntries_composite {members : List Classifier} {code : Codebase}
    (hmembers : ∀ member ∈ members, member.NamesEntries code) :
    (composite members).NamesEntries code := by
  intro entry hentry
  obtain ⟨member, hmember, hentry⟩ := exists_member_of_mem_composite hentry
  exact hmembers member hmember entry hentry

end Classifier

theorem ClassifierChoice.namesEntries {choice : ClassifierChoice} {classifier : Classifier}
    (h : choice.classifier? = some classifier) (code : Codebase) :
    classifier.NamesEntries code := by
  cases choice with
  | spring =>
      cases h
      exact Classifier.namesEntries_spring code
  | naming =>
      cases h
      exact Classifier.namesEntries_naming code
  | composite =>
      cases h
      apply Classifier.namesEntries_composite
      intro member hmember
      simp only [List.mem_cons, List.not_mem_nil, or_false] at hmember
      rcases hmember with rfl | rfl
      · exact Classifier.namesEntries_spring code
      · exact Classifier.namesEntries_naming code
  | none => contradiction

theorem Codebase.legible_analyse (code : Codebase) {classifier : Option Classifier}
    {keep : Bool} (hentries : EntryPoint.AllNamed (code.analyse classifier keep).entryPoints) :
    (code.analyse classifier keep).graph.Legible := by
  have hcalls : code.callGraph.Legible :=
    Hierarchy.legible_expandCalls (Build.legible_directGraph code)
  have hadded : (code.callGraph.insertNodes Build.entryNode _).Legible :=
    hcalls.insertNodes hentries
  rw [graph_analyse]
  exact hadded.mapNodes _

theorem Codebase.hasNode_entry_analyse (code : Codebase) {classifier : Option Classifier}
    {keep : Bool} {entry : EntryPoint}
    (hentry : entry ∈ (code.analyse classifier keep).entryPoints) :
    (code.analyse classifier keep).graph.hasNode entry.signature = true := by
  rw [graph_analyse, CallGraph.hasNode_mapNodes, CallGraph.hasNode_insertNodes]
  exact .inr ⟨entry, hentry, rfl⟩

/-- What is built can be traced: its graph is well-formed, without blank signatures, and has all
entry points. -/
theorem Codebase.analyse_traceable (code : Codebase) {classifier : Option Classifier}
    (hnamed : ∀ c, classifier = some c → c.NamesEntries code) (keep : Bool) :
    (code.analyse classifier keep).Traceable := by
  have hdeclared : EntryPoint.AllNamed
      ((classifier.map fun c => c.entryPoints code).getD []) := by
    cases classifier with
    | none =>
        intro e he
        simp at he
    | some c => exact hnamed c rfl
  have hentries : EntryPoint.AllNamed (code.analyse classifier keep).entryPoints := by
    rw [entryPoints_analyse]
    exact Hierarchy.allNamed_expandEntryPoints hdeclared _
  exact
    { legible := code.legible_analyse hentries
      entry := fun _ hentry => code.hasNode_entry_analyse hentry }

end CallTrace
