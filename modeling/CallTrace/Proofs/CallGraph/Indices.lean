import CallTrace.CallGraph
import CallTrace.Proofs.Sort

/-!
What the indices of a call graph stand for. The map finds the nodes by their signatures, and the
arcs are the edges between the signatures at their ends.
-/

namespace CallTrace.CallGraph

open GraphStore (index? hasNode node? signature? hasEdge edge? edges)

variable {g : CallGraph}

def listed (g : CallGraph) : List Signature :=
  g.nodes.map fun n => n.signature

theorem signature?_eq (g : CallGraph) (i : Nat) : g.signature? i = g.listed[i]? := by
  rw [signature?, listed, List.getElem?_map]

theorem index?_eq_some {s : Signature} {i : Nat} :
    g.index? s = some i ↔ g.listed[i]? = some s := by
  rw [g.inStep.index?_eq_some, signature?_eq]

theorem nodup_listed (g : CallGraph) : g.listed.Nodup := by
  rw [List.nodup_iff_getElem?_ne_getElem?]
  intro i j hij hj hsame
  have hlast : g.index? g.listed[j] = some j := index?_eq_some.mpr (List.getElem?_eq_getElem hj)
  have hfirst : g.index? g.listed[j] = some i := by
    rw [index?_eq_some, hsame]
    exact List.getElem?_eq_getElem hj
  rw [hlast] at hfirst
  exact Nat.ne_of_gt hij (Option.some.inj hfirst)

theorem hasNode_iff_mem_listed {s : Signature} : g.hasNode s = true ↔ s ∈ g.listed := by
  rw [List.mem_iff_getElem?, hasNode, SortedMap.contains, Option.isSome_iff_exists]
  exact exists_congr fun i => index?_eq_some

theorem hasNode_iff {s : Signature} :
    g.hasNode s = true ↔ ∃ n ∈ g.nodes, n.signature = s := by
  rw [hasNode_iff_mem_listed, listed, List.mem_map]

theorem node?_eq_some {s : Signature} {n : GraphNode} :
    g.node? s = some n ↔ n ∈ g.nodes ∧ n.signature = s := by
  rw [node?, Option.bind_eq_some_iff]
  constructor
  · rintro ⟨i, hi, hn⟩
    rw [index?_eq_some, listed, List.getElem?_map, hn] at hi
    exact ⟨List.mem_of_getElem? hn, Option.some.inj hi⟩
  · rintro ⟨hn, rfl⟩
    obtain ⟨i, hi⟩ := List.mem_iff_getElem?.mp hn
    refine ⟨i, ?_, hi⟩
    rw [index?_eq_some, listed, List.getElem?_map, hi]
    rfl

theorem node?_eq_find? (g : CallGraph) (s : Signature) :
    g.node? s = g.nodes.find? fun n => n.signature == s := by
  apply Option.ext
  intro n
  rw [node?_eq_some, find?_eq_some_iff_of_nodup g.nodup_listed]

theorem edge?_eq_some {arc : Arc} {e : CallEdge} :
    g.edge? arc = some e ↔
      g.index? e.caller = some arc.source ∧ g.index? e.callee = some arc.target := by
  obtain ⟨caller, callee⟩ := e
  rw [g.inStep.index?_eq_some, g.inStep.index?_eq_some]
  cases hsource : g.signature? arc.source <;> cases htarget : g.signature? arc.target <;>
    simp [edge?, hsource, htarget]

theorem exists_edge? {arc : Arc} (harc : arc ∈ g.arcs) : ∃ e, g.edge? arc = some e := by
  obtain ⟨hsource, htarget⟩ := g.inStep.ends_lt arc harc
  refine ⟨⟨g.nodes[arc.source].signature, g.nodes[arc.target].signature⟩, ?_⟩
  rw [edge?_eq_some, index?_eq_some, index?_eq_some]
  simp [listed, hsource, htarget]

theorem hasEdge_iff_arc {u v : Signature} :
    g.hasEdge u v = true ↔
      ∃ i j, g.index? u = some i ∧ g.index? v = some j ∧ ⟨i, j⟩ ∈ g.arcs := by
  unfold hasEdge
  split
  · rename_i i j hi hj
    simp [hi, hj]
  · rename_i hmissing
    simp only [Bool.false_eq_true, false_iff]
    rintro ⟨i, j, hi, hj, -⟩
    exact hmissing i j hi hj

theorem mem_arcs_iff {arc : Arc} {e : CallEdge} (he : g.edge? arc = some e) :
    arc ∈ g.arcs ↔ g.hasEdge e.caller e.callee = true := by
  obtain ⟨hcaller, hcallee⟩ := edge?_eq_some.mp he
  rw [hasEdge_iff_arc]
  simp [hcaller, hcallee]

theorem hasEdge_iff {u v : Signature} : g.hasEdge u v = true ↔ ⟨u, v⟩ ∈ g.edges := by
  rw [hasEdge_iff_arc, edges, List.mem_filterMap]
  simp only [edge?_eq_some]
  constructor
  · rintro ⟨i, j, hi, hj, harc⟩
    exact ⟨⟨i, j⟩, harc, hi, hj⟩
  · rintro ⟨⟨i, j⟩, harc, hi, hj⟩
    exact ⟨i, j, hi, hj, harc⟩

theorem length_edges (g : CallGraph) : g.edges.length = g.arcs.length := by
  rw [edges, List.length_filterMap_eq_countP, List.countP_eq_length]
  intro arc harc
  obtain ⟨e, he⟩ := exists_edge? harc
  rw [he]
  rfl

theorem index?_mono {h : CallGraph} (hlisted : g.listed <+: h.listed) {s : Signature} {i : Nat}
    (hi : g.index? s = some i) : h.index? s = some i := by
  rw [index?_eq_some] at hi ⊢
  obtain ⟨rest, heq⟩ := hlisted
  rw [← heq, List.getElem?_append_left (List.getElem?_eq_some_iff.mp hi).1]
  exact hi

theorem edge?_mono {h : CallGraph} (hlisted : g.listed <+: h.listed) {arc : Arc}
    (harc : arc ∈ g.arcs) : h.edge? arc = g.edge? arc := by
  obtain ⟨e, he⟩ := exists_edge? harc
  obtain ⟨hcaller, hcallee⟩ := edge?_eq_some.mp he
  rw [he, edge?_eq_some]
  exact ⟨index?_mono hlisted hcaller, index?_mono hlisted hcallee⟩

theorem filterMap_edge?_mono {h : CallGraph} (hlisted : g.listed <+: h.listed) :
    g.arcs.filterMap h.edge? = g.edges :=
  List.filterMap_congr fun _ harc => edge?_mono hlisted harc

theorem filterMap_signature?_eq {i : Nat} {s : Signature} (hi : g.index? s = some i)
    {near far : Arc → Nat} {first last : CallEdge → Signature}
    (hends : ∀ {arc e}, g.edge? arc = some e →
      g.index? (first e) = some (near arc) ∧ g.index? (last e) = some (far arc))
    {arcs : List Arc} (harcs : ∀ arc ∈ arcs, arc ∈ g.arcs) :
    ((arcs.filter fun arc => near arc == i).filterMap fun arc => g.signature? (far arc)) =
      ((arcs.filterMap g.edge?).filter fun e => first e == s).map last := by
  induction arcs with
  | nil => rfl
  | cons arc rest ih =>
      obtain ⟨harc, hrest⟩ := List.forall_mem_cons.mp harcs
      obtain ⟨e, he⟩ := exists_edge? harc
      obtain ⟨hnear, hfar⟩ := hends he
      rw [g.inStep.index?_eq_some] at hfar
      have hsame : near arc = i ↔ first e = s := by
        constructor
        · rintro rfl
          rw [g.inStep.index?_eq_some] at hi hnear
          exact Option.some.inj (hnear.symm.trans hi)
        · rintro rfl
          exact Option.some.inj (hnear.symm.trans hi)
      rw [List.filterMap_cons_some he]
      by_cases heq : first e = s
      · simp [hsame.mpr heq, heq, hfar, ih hrest]
      · simp [mt hsame.mp heq, heq, ih hrest]

theorem neighbours_eq {near far : Arc → Nat} {first last : CallEdge → Signature}
    (hends : ∀ {arc e}, g.edge? arc = some e →
      g.index? (first e) = some (near arc) ∧ g.index? (last e) = some (far arc)) (s : Signature) :
    g.neighbours near far s =
      sortSignatures ((g.edges.filter fun e => first e == s).map last) := by
  unfold GraphStore.neighbours
  split
  · rename_i hnone
    have hempty : g.edges.filter (fun e => first e == s) = [] := by
      rw [List.filter_eq_nil_iff]
      intro e he hsame
      obtain ⟨arc, -, hedge⟩ := List.mem_filterMap.mp he
      rw [← beq_iff_eq.mp hsame, (hends hedge).1] at hnone
      contradiction
    rw [hempty]
    rfl
  · rename_i i hi
    rw [filterMap_signature?_eq hi hends fun _ harc => harc]
    rfl

theorem successors_eq (g : CallGraph) (s : Signature) :
    g.successors s = sortSignatures ((g.edges.filter fun e => e.caller == s).map fun e => e.callee) :=
  neighbours_eq (fun hedge => edge?_eq_some.mp hedge) s

theorem predecessors_eq (g : CallGraph) (s : Signature) :
    g.predecessors s = sortSignatures ((g.edges.filter fun e => e.callee == s).map fun e => e.caller) :=
  neighbours_eq (fun hedge => (edge?_eq_some.mp hedge).symm) s

end CallTrace.CallGraph
