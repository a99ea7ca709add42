import CallTrace.Proofs.Build.Named
import CallTrace.Proofs.Snapshot.Recover

namespace CallTrace

namespace Analysis

namespace Recovers

variable {a b : Analysis} {depth : Nat}

theorem traceable (h : a.Recovers b depth) (ha : a.Traceable) : b.Traceable where
  legible :=
    { h.wellFormed with
      named := fun s hs => ha.legible.named s (ha.hasNode ((h.node s).mp hs)) }
  entry entry hentry := by
    rw [h.entryPoints] at hentry
    exact (h.node _).mpr (.entry hentry depth)

theorem successors_eq (h : a.Recovers b depth) (ha : a.Traceable) {u : Signature}
    (hu : a.ShowsCalls depth u) : b.graph.successors u = a.graph.successors u := by
  apply List.Pairwise.eq_of_mem_iff (h.wellFormed.successors_strict u)
    (ha.legible.successors_strict u)
  intro v
  rw [CallGraph.mem_successors, CallGraph.mem_successors, h.edge]
  exact and_iff_left hu

theorem unfold_eq (h : a.Recovers b depth) (ha : a.Traceable) {entry : EntryPoint}
    (hentry : entry ∈ a.entryPoints) {j k : Nat} {u : Signature}
    (hu : a.graph.ReachesIn j entry.signature u) (hk : j + k ≤ depth)
    (path : List Signature) : b.graph.unfold k path u = a.graph.unfold k path u := by
  apply CallGraph.unfold_congr
  · intro n t hn ht
    exact h.layer t ⟨entry, hentry, j + n, by omega, hu.trans ht⟩
  · intro n t hn ht
    exact h.successors_eq ha ⟨entry, hentry, j + n, by omega, hu.trans ht⟩

theorem tree_eq (h : a.Recovers b depth) (ha : a.Traceable) (hdepth : depth ≤ maxTreeDepth)
    {entry : EntryPoint} (hentry : entry ∈ a.entryPoints) {j k : Nat} {u : Signature}
    (hu : a.graph.ReachesIn j entry.signature u) (hk : j + k ≤ depth) :
    b.tree u k = a.tree u k := by
  have hshows : a.Shows depth u := ⟨entry, hentry, j, by omega, hu⟩
  rw [Analysis.tree_eq (by omega) (ha.hasNode hshows),
    Analysis.tree_eq (by omega) ((h.node u).mpr hshows), h.unfold_eq ha hentry hu hk,
    entryPoint?, entryPoint?, h.entryPoints]

theorem snapshot_eq (h : a.Recovers b depth) (ha : a.Traceable)
    (hnode : ∀ s, a.Shows depth s → b.graph.node? s = a.graph.node? s) :
    b.snapshot depth = a.snapshot depth := by
  have htrees : a.entryPoints.map (b.graph.rooted depth) =
      a.entryPoints.map (a.graph.rooted depth) := by
    apply List.map_congr_left
    intro entry hentry
    rw [CallGraph.rooted, CallGraph.rooted,
      h.unfold_eq ha hentry (.refl entry.signature) (by omega)]
  rw [snapshot, snapshot, h.entryPoints, htrees]
  apply Snapshot.capture_congr
  intro tree htree s hs
  exact hnode s (exists_mem_signatures_iff.mp ⟨tree, htree, hs⟩)

end Recovers

theorem snapshot_describes (a : Analysis) (depth : Nat) :
    (a.snapshot depth).Describes a depth where
  version := rfl
  entryPoints := rfl
  trees := rfl
  nodes s metadata hmetadata := by
    rw [snapshot, Snapshot.get?_capture] at hmetadata
    split at hmetadata
    · rename_i hshown
      exact ⟨exists_mem_signatures_iff.mp hshown, hmetadata⟩
    · contradiction

theorem Traceable.exists_saved {a : Analysis} (ha : a.Traceable) {depth : Nat}
    (hdepth : depth ≤ maxTreeDepth) :
    ∃ restored, restore (a.snapshot depth) = .ok restored ∧ a.Recovers restored depth ∧
      restored.save depth = .ok (a.snapshot depth) := by
  obtain ⟨restored, hrestore, hrecovers, hnodes⟩ :=
    ha.exists_restore (a.snapshot_describes depth)
  refine ⟨restored, hrestore, hrecovers, ?_⟩
  rw [(hrecovers.traceable ha).save_eq hdepth, hrecovers.snapshot_eq ha]
  intro s hs
  apply hnodes
  rw [snapshot, Snapshot.get?_capture, if_pos (exists_mem_signatures_iff.mpr hs),
    Option.isSome_map, CallGraph.isSome_node?]
  exact ha.hasNode hs

theorem Traceable.exists_bare {a : Analysis} (ha : a.Traceable) (depth : Nat) :
    ∃ bare, restore { a.snapshot depth with nodes := .empty } = .ok bare ∧
      a.Recovers bare depth := by
  have hbare : ({ a.snapshot depth with nodes := .empty } : Snapshot).Describes a depth :=
    { a.snapshot_describes depth with
      nodes := fun s metadata hmetadata => by simp at hmetadata }
  obtain ⟨bare, hrestore, hrecovers, -⟩ := ha.exists_restore hbare
  exact ⟨bare, hrestore, hrecovers⟩

end Analysis

/-- An analysis of any code can be saved and restored, and then gives the same snapshot again. A
method that an entry point reaches in `j` calls has the same tree to the levels that are left, also
when the snapshot loses its metadata. -/
theorem Codebase.snapshot_faithful
    (code : Codebase) (classifier : Option Classifier) (keep : Bool) (depth : Nat)
    (hnamed : ∀ c, classifier = some c → c.NamesEntries code)
    (hdepth : depth ≤ maxTreeDepth) :
    (∀ choice c, ClassifierChoice.classifier? choice = some c → c.NamesEntries code) ∧
    ∃ snapshot restored bare,
      (code.analyse classifier keep).save depth = .ok snapshot ∧
      Analysis.restore snapshot = .ok restored ∧
      Analysis.restore { snapshot with nodes := .empty } = .ok bare ∧
      restored.save depth = .ok snapshot ∧
      ∀ entry ∈ (code.analyse classifier keep).entryPoints, ∀ j u,
        (code.analyse classifier keep).graph.ReachesIn j entry.signature u →
        ∀ k, j + k ≤ depth →
          ∃ tree,
            (code.analyse classifier keep).tree u k = .ok tree ∧
            restored.tree u k = .ok tree ∧
            bare.tree u k = .ok tree := by
  refine ⟨fun choice c hc => ClassifierChoice.namesEntries hc code, ?_⟩
  have ha := code.analyse_traceable hnamed keep
  obtain ⟨restored, hrestored, hrecovers, hsaved⟩ := ha.exists_saved hdepth
  obtain ⟨bare, hbare, hrecoversBare⟩ := ha.exists_bare depth
  refine ⟨_, restored, bare, ha.save_eq hdepth, hrestored, hbare, hsaved, ?_⟩
  intro entry hentry j u hu k hk
  have hnode : (code.analyse classifier keep).graph.hasNode u = true :=
    hu.hasNode ha.legible.toWellFormed (ha.entry entry hentry)
  have htree := Analysis.tree_eq (by omega : k ≤ maxTreeDepth) hnode
  refine ⟨_, htree, ?_, ?_⟩
  · rw [hrecovers.tree_eq ha hdepth hentry hu hk, htree]
  · rw [hrecoversBare.tree_eq ha hdepth hentry hu hk, htree]

def pingPong : Codebase where
  classes :=
    [{ name := "PingController"
       fields := [⟨"service", "PongService"⟩]
       methods := [{ name := "ping", calls := ["service.pong()"] }] },
     { name := "PongService"
       fields := [⟨"caller", "PingController"⟩]
       methods := [{ name := "pong", calls := ["caller.ping()"] }] }]

theorem pingPong_snapshot_faithful :
    ∃ snapshot restored bare tree,
      (pingPong.analyse (some .naming) false).save 3 = .ok snapshot ∧
      Analysis.restore snapshot = .ok restored ∧
      Analysis.restore { snapshot with nodes := .empty } = .ok bare ∧
      restored.save 3 = .ok snapshot ∧
      restored.tree "PongService.pong" 2 = .ok tree ∧
      bare.tree "PongService.pong" 2 = .ok tree ∧
      tree.signatures = ["PongService.pong", "PingController.ping", "PongService.pong"] := by
  obtain ⟨-, snapshot, restored, bare, hsave, hrestored, hbare, hsaved, htrees⟩ :=
    Codebase.snapshot_faithful pingPong (some .naming) false 3
      (by
        rintro c ⟨⟩
        exact Classifier.namesEntries_naming pingPong)
      (by decide)
  obtain ⟨tree, htree, hrestoredTree, hbareTree⟩ :=
    htrees (.ofMethod "HANDLER" "" "PingController" "ping" "") (by decide) 1 "PongService.pong"
      (.single (by decide)) 2 (by decide)
  refine ⟨snapshot, restored, bare, tree, hsave, hrestored, hbare, hsaved, hrestoredTree,
    hbareTree, ?_⟩
  rw [Analysis.tree_eq (by decide) (by decide)] at htree
  cases htree
  decide

/-- The graph restored from a snapshot has the nodes that entry points reach within the depth, and
the calls of those they reach in fewer. The relations are all there when every caller is reached
so. -/
theorem Codebase.snapshot_captures
    (code : Codebase) (classifier : Option Classifier) (keep : Bool) (depth : Nat)
    (hnamed : ∀ c, classifier = some c → c.NamesEntries code)
    (hdepth : depth ≤ maxTreeDepth) :
    ∃ snapshot restored,
      (code.analyse classifier keep).save depth = .ok snapshot ∧
      Analysis.restore snapshot = .ok restored ∧
      restored.graph.WellFormed ∧
      (∀ u v, restored.graph.hasEdge u v = true ↔
        (code.analyse classifier keep).graph.hasEdge u v = true ∧
          (code.analyse classifier keep).ShowsCalls depth u) ∧
      (∀ s, restored.graph.hasNode s = true ↔
        (code.analyse classifier keep).Shows depth s) ∧
      (restored.relations = (code.analyse classifier keep).relations ↔
        ∀ u v, (code.analyse classifier keep).graph.hasEdge u v = true →
          (code.analyse classifier keep).ShowsCalls depth u) := by
  have ha := code.analyse_traceable hnamed keep
  obtain ⟨restored, hrestored, hrecovers, -⟩ := ha.exists_saved hdepth
  refine ⟨_, restored, ha.save_eq hdepth, hrestored, hrecovers.wellFormed, hrecovers.edge,
    hrecovers.node, ?_⟩
  rw [Analysis.relations, Analysis.relations,
    hrecovers.wellFormed.sortedEdges_eq_iff ha.legible.toWellFormed]
  simp only [hrecovers.edge, and_iff_left_iff_imp]

theorem pingPong_snapshot_captures :
    ∃ snapshot restored,
      (pingPong.analyse (some .naming) false).save 1 = .ok snapshot ∧
      Analysis.restore snapshot = .ok restored ∧
      restored.graph.hasEdge "PingController.ping" "PongService.pong" = true ∧
      restored.graph.hasNode "PongService.pong" = true ∧
      restored.relations ≠ (pingPong.analyse (some .naming) false).relations := by
  obtain ⟨snapshot, restored, hsave, hrestored, -, hedge, hnode, hrelations⟩ :=
    Codebase.snapshot_captures pingPong (some .naming) false 1
      (by
        rintro c ⟨⟩
        exact Classifier.namesEntries_naming pingPong)
      (by decide)
  have hentry : .ofMethod "HANDLER" "" "PingController" "ping" "" ∈
      (pingPong.analyse (some .naming) false).entryPoints := by decide
  refine ⟨snapshot, restored, hsave, hrestored, ?_, ?_, ?_⟩
  · exact (hedge _ _).mpr ⟨by decide, _, hentry, 0, by decide, .refl _⟩
  · exact (hnode _).mpr ⟨_, hentry, 1, by decide, .single (by decide)⟩
  · intro heq
    obtain ⟨entry, hmem, n, hn, hreach⟩ :=
      hrelations.mp heq "PongService.pong" "PingController.ping" (by decide)
    obtain rfl : n = 0 := by omega
    have hother : ∀ e ∈ (pingPong.analyse (some .naming) false).entryPoints,
        e.signature ≠ "PongService.pong" := by decide
    generalize hsignature : entry.signature = s at hreach
    cases hreach
    exact hother entry hmem hsignature

end CallTrace
