import CallTrace.Proofs.CallTree.Walk
import CallTrace.Proofs.Cycle.Search

/-!
Graphs that agree: they have the same signatures with the same layers, and the same calls. In what
order these came, and how often, shows in no answer: every view is sorted, components are classes of
mutual reach, and the searches for cycles and trees go by sorted callees.
-/

namespace CallTrace.CallGraph

def HasLayer (g : CallGraph) (s : Signature) (layer : Layer) : Prop :=
  ∃ n ∈ g.nodes, n.signature = s ∧ n.layer = layer

structure Agrees (g h : CallGraph) : Prop where
  hasLayer : ∀ s layer, g.HasLayer s layer ↔ h.HasLayer s layer
  hasEdge : ∀ u v, g.hasEdge u v = true ↔ h.hasEdge u v = true

theorem hasNode_iff_hasLayer {g : CallGraph} {s : Signature} :
    g.hasNode s = true ↔ ∃ layer, g.HasLayer s layer := by
  rw [hasNode_iff]
  constructor
  · rintro ⟨n, hn, hs⟩
    exact ⟨n.layer, n, hn, hs, rfl⟩
  · rintro ⟨layer, n, hn, hs, -⟩
    exact ⟨n, hn, hs⟩

theorem layerOf_of_hasLayer {g : CallGraph} {s : Signature} {layer : Layer}
    (h : g.HasLayer s layer) : g.layerOf s = layer := by
  obtain ⟨n, hn, hs, rfl⟩ := h
  rw [layerOf_eq, node?_eq_some.mpr ⟨hn, hs⟩]
  rfl

theorem layerOf_of_not_hasNode {g : CallGraph} {s : Signature} (h : g.hasNode s = false) :
    g.layerOf s = .unknown := by
  rw [← isSome_node?, Option.isSome_eq_false_iff, Option.isNone_iff_eq_none] at h
  rw [layerOf_eq, h]
  rfl

theorem cycleSearch_congr {g h : CallGraph} (hcalls : ∀ s, g.successors s = h.successors s)
    (members : List Signature) (start : Signature) (steps : Nat) (seen : List Signature)
    (queue : List (Signature × List Signature)) :
    g.cycleSearch members start steps seen queue =
      h.cycleSearch members start steps seen queue := by
  induction steps generalizing seen queue with
  | zero => rfl
  | succ steps ih =>
      cases queue with
      | nil => rfl
      | cons first queue => simp only [cycleSearch, hcalls, ih]

theorem cycleWithin?_congr {g h : CallGraph} (hcalls : ∀ s, g.successors s = h.successors s)
    (members : List Signature) : g.cycleWithin? members = h.cycleWithin? members := by
  cases members with
  | nil => rfl
  | cons start rest => exact cycleSearch_congr hcalls ..

theorem ReachesIn.mono {g h : CallGraph}
    (hcalls : ∀ u v, g.hasEdge u v = true → h.hasEdge u v = true) {n : Nat} {s t : Signature}
    (hreach : g.ReachesIn n s t) : h.ReachesIn n s t := by
  induction hreach with
  | refl => exact .refl _
  | call _ hedge ih => exact .call ih (hcalls _ _ hedge)

namespace Agrees

variable {g h : CallGraph}

theorem symm (hagree : g.Agrees h) : h.Agrees g where
  hasLayer s layer := (hagree.hasLayer s layer).symm
  hasEdge u v := (hagree.hasEdge u v).symm

theorem hasNode_eq (hagree : g.Agrees h) (s : Signature) : g.hasNode s = h.hasNode s := by
  rw [Bool.eq_iff_iff, hasNode_iff_hasLayer, hasNode_iff_hasLayer]
  exact exists_congr (hagree.hasLayer s)

theorem layerOf_eq (hagree : g.Agrees h) (s : Signature) : g.layerOf s = h.layerOf s := by
  cases hnode : g.hasNode s with
  | false =>
      have hother := (hagree.hasNode_eq s).symm.trans hnode
      rw [layerOf_of_not_hasNode hnode, layerOf_of_not_hasNode hother]
  | true =>
      obtain ⟨layer, hlayer⟩ := hasNode_iff_hasLayer.mp hnode
      rw [layerOf_of_hasLayer hlayer, layerOf_of_hasLayer ((hagree.hasLayer s layer).mp hlayer)]

theorem successors_eq (hagree : g.Agrees h) (hg : g.WellFormed) (hh : h.WellFormed)
    (s : Signature) : g.successors s = h.successors s := by
  apply List.Pairwise.eq_of_mem_iff (hg.successors_strict s) (hh.successors_strict s)
  intro t
  rw [mem_successors, mem_successors, hagree.hasEdge]

theorem predecessors_eq (hagree : g.Agrees h) (hg : g.WellFormed) (hh : h.WellFormed)
    (s : Signature) : g.predecessors s = h.predecessors s := by
  apply List.Pairwise.eq_of_mem_iff (hg.predecessors_strict s) (hh.predecessors_strict s)
  intro t
  rw [mem_predecessors, mem_predecessors, hagree.hasEdge]

theorem signatures_eq (hagree : g.Agrees h) : g.signatures = h.signatures := by
  apply List.Pairwise.eq_of_mem_iff g.signatures_strict h.signatures_strict
  intro s
  rw [mem_signatures, mem_signatures, hagree.hasNode_eq]

theorem sortedEdges_eq (hagree : g.Agrees h) (hg : g.WellFormed) (hh : h.WellFormed) :
    g.sortedEdges = h.sortedEdges :=
  (hg.sortedEdges_eq_iff hh).mpr hagree.hasEdge

theorem reaches_iff (hagree : g.Agrees h) {s t : Signature} : g.Reaches s t ↔ h.Reaches s t :=
  exists_congr fun _ =>
    ⟨.mono fun u v => (hagree.hasEdge u v).mp, .mono fun u v => (hagree.hasEdge u v).mpr⟩

theorem isComponent (hagree : g.Agrees h) {members : List Signature}
    (hcomponent : g.IsComponent members) : h.IsComponent members := by
  have hmutual : ∀ s t, g.Mutual s t ↔ h.Mutual s t := fun s t =>
    and_congr hagree.reaches_iff hagree.reaches_iff
  obtain ⟨hstrict, hclass, hcyclic⟩ := hcomponent
  simp only [hmutual, hagree.hasNode_eq, hagree.hasEdge] at hclass hcyclic
  exact ⟨hstrict, hclass, hcyclic⟩

theorem components_eq (hagree : g.Agrees h) (hg : g.WellFormed) (hh : h.WellFormed) :
    g.components = h.components := by
  apply List.Pairwise.eq_of_mem_iff hg.components_strict hh.components_strict
  intro members
  rw [hg.mem_components_iff, hh.mem_components_iff]
  exact ⟨hagree.isComponent, hagree.symm.isComponent⟩

theorem cycles_eq (hagree : g.Agrees h) (hg : g.WellFormed) (hh : h.WellFormed) :
    g.cycles = h.cycles := by
  have hsearch : g.cycleWithin? = h.cycleWithin? :=
    funext (cycleWithin?_congr (hagree.successors_eq hg hh))
  rw [cycles, cycles, hagree.components_eq hg hh, hsearch]

theorem trace_eq (hagree : g.Agrees h) (hg : g.WellFormed) (hh : h.WellFormed) {maxDepth : Nat}
    (hbound : maxDepth < depthBound) (root : Signature) (entry : Option EntryPoint) :
    g.trace root maxDepth entry = h.trace root maxDepth entry := by
  have htree : g.tree? root maxDepth = h.tree? root maxDepth := by
    cases hroot : g.hasNode root with
    | false =>
        have hother := (hagree.hasNode_eq root).symm.trans hroot
        rw [tree?_eq_none hroot, tree?_eq_none hother]
    | true =>
        have hother := (hagree.hasNode_eq root).symm.trans hroot
        have hunfold : g.unfold maxDepth [root] root = h.unfold maxDepth [root] root :=
          unfold_congr (fun _ t _ _ => hagree.layerOf_eq t)
            (fun _ t _ _ => hagree.successors_eq hg hh t)
        rw [tree?_eq_some hbound hroot, tree?_eq_some hbound hother, hunfold]
  rw [trace, trace, htree]

end Agrees

/-- Two runs of operations that leave the same signatures with the same layers, and the same calls,
leave the same answers: callees, callers and relations, components and cycles, and below every root
to every depth the same tree with the same text, or the same error. -/
theorem answers_by_content (first second : List Change)
    (hagree : (ofChanges first).Agrees (ofChanges second)) :
    (∀ s, (ofChanges first).successors s = (ofChanges second).successors s) ∧
    (∀ s, (ofChanges first).predecessors s = (ofChanges second).predecessors s) ∧
    (ofChanges first).sortedEdges = (ofChanges second).sortedEdges ∧
    (ofChanges first).components = (ofChanges second).components ∧
    (ofChanges first).cycles = (ofChanges second).cycles ∧
    ∀ (root : Signature) (maxDepth : UInt64) (entry : Option EntryPoint),
      (ofChanges first).trace root maxDepth.toNat entry =
        (ofChanges second).trace root maxDepth.toNat entry ∧
      ((ofChanges first).trace root maxDepth.toNat entry).map CallTree.render =
        ((ofChanges second).trace root maxDepth.toNat entry).map CallTree.render := by
  have hg := wellFormed_ofChanges first
  have hh := wellFormed_ofChanges second
  refine ⟨hagree.successors_eq hg hh, hagree.predecessors_eq hg hh, hagree.sortedEdges_eq hg hh,
    hagree.components_eq hg hh, hagree.cycles_eq hg hh, fun root maxDepth entry => ?_⟩
  have htrace := hagree.trace_eq hg hh maxDepth.toNat_lt root entry
  exact ⟨htrace, congrArg _ htrace⟩

def controllerFirst : List Change :=
  [.insertNode ⟨"A.a", "A", "A.java", .controller⟩, .addEdge "A.a" "B.b", .addEdge "B.b" "A.a",
    .addEdge "B.b" "C.c"]

/-- The same content in another order, with repetitions and a second, late description. -/
def calleesFirst : List Change :=
  [.addEdge "B.b" "C.c", .insertNode ⟨"A.a", "A", "A.java", .controller⟩, .addEdge "B.b" "A.a",
    .addEdge "A.a" "B.b", .addEdge "B.b" "C.c", .insertNode ⟨"A.a", "X", "X.java", .service⟩]

theorem controllerFirst_agrees : (ofChanges controllerFirst).Agrees (ofChanges calleesFirst) where
  hasLayer s layer := by
    have hfirst : (ofChanges controllerFirst).nodes =
        [⟨"A.a", "A", "A.java", .controller⟩, .unknown "B.b", .unknown "C.c"] := by decide
    have hsecond : (ofChanges calleesFirst).nodes =
        [.unknown "B.b", .unknown "C.c", ⟨"A.a", "A", "A.java", .controller⟩] := by decide
    simp only [HasLayer, hfirst, hsecond, List.mem_cons, List.not_mem_nil, or_false,
      exists_eq_or_imp, exists_eq_left]
    tauto
  hasEdge u v := by
    rw [hasEdge_ofChanges, hasEdge_ofChanges]
    simp only [controllerFirst, calleesFirst, List.mem_cons, reduceCtorEq, List.not_mem_nil,
      false_or, or_false]
    tauto

theorem answers_by_content_reordered :
    (ofChanges controllerFirst).Agrees (ofChanges calleesFirst) ∧
      (ofChanges controllerFirst).nodes ≠ (ofChanges calleesFirst).nodes ∧
      (ofChanges controllerFirst).cycles = (ofChanges calleesFirst).cycles ∧
      (ofChanges controllerFirst).trace "A.a" 5 none =
        (ofChanges calleesFirst).trace "A.a" 5 none := by
  obtain ⟨-, -, -, -, hcycles, htrees⟩ :=
    answers_by_content controllerFirst calleesFirst controllerFirst_agrees
  exact ⟨controllerFirst_agrees, by decide, hcycles, (htrees "A.a" 5 none).1⟩

end CallTrace.CallGraph
