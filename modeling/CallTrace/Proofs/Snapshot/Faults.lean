import CallTrace.Analysis
import CallTrace.Proofs.Snapshot.Restore
import CallTrace.Proofs.Snapshot.RoundTrip

/-!
The faults of snapshots. Restoring looks at every entry point and every node of every tree, so that
it succeeds only where none of them has a fault, and nothing else makes it fail.
-/

namespace CallTrace

namespace Restore.Runs

theorem of_bind {m : RestoreM Unit} {n : Unit → RestoreM Unit} {g after : CallGraph}
    (h : Runs (m >>= n) g after) : ∃ middle, Runs m g middle ∧ Runs (n ()) middle after := by
  unfold Runs at h ⊢
  simp only [ExceptT.run_bind, StateT.run_bind] at h
  cases hm : m.run.run g with
  | mk result middle =>
      cases result with
      | ok =>
          rw [hm] at h
          exact ⟨middle, rfl, h⟩
      | error e =>
          rw [hm] at h
          cases h

theorem not_throw {e : SnapshotError} {g after : CallGraph} : ¬ Runs (throw e) g after := by
  intro h
  cases h

theorem not_throw_bind {e : SnapshotError} {n : Unit → RestoreM Unit} {g after : CallGraph} :
    ¬ Runs (throw e >>= n) g after := by
  intro h
  obtain ⟨middle, hthrow, -⟩ := of_bind h
  exact not_throw hthrow

/-- A guard with no way on is passed only where it does not hold. -/
theorem of_guard {p : Bool} {stop m : RestoreM Unit} {g after : CallGraph}
    (hstop : ¬ Runs stop g after) (h : Runs (if p then stop else m) g after) :
    p = false ∧ Runs m g after := by
  cases p with
  | true => exact absurd h hstop
  | false => exact ⟨rfl, h⟩

theorem of_forM {f : α → RestoreM Unit} {items : List α} {g after : CallGraph}
    (h : Runs (items.forM f) g after) :
    ∀ item ∈ items, ∃ before next, Runs (f item) before next := by
  induction items generalizing g with
  | nil => simp
  | cons item rest ih =>
      obtain ⟨middle, hitem, hrest⟩ := of_bind h
      exact List.forall_mem_cons.mpr ⟨⟨g, middle, hitem⟩, ih hrest⟩

end Restore.Runs

namespace Restore

mutual

theorem restorable_of_runs_subtree (tree : CallTree) {g after : CallGraph}
    (hblank : Text.isBlank tree.signature = false) (h : Runs (subtree tree) g after) :
    tree.Restorable := by
  cases tree with
  | mk s layer circular children entry =>
      rw [subtree] at h
      obtain ⟨hcircular, h⟩ := h.of_guard Runs.not_throw_bind
      obtain ⟨taken, -, h⟩ := h.of_bind
      obtain ⟨linked, hchildren, hbelow⟩ := h.of_bind
      have hsignatures : ∀ child ∈ children, Text.isBlank child.signature = false := by
        intro tree htree
        obtain ⟨before, next, hchild⟩ := hchildren.of_forM tree htree
        exact (hchild.of_guard Runs.not_throw).1
      have hrestorable := restorable_of_runs_subtreesFromLast children hsignatures hbelow
      intro node hnode
      rcases CallTree.hasNode_iff.mp hnode with rfl | ⟨child, hchild, hbelow⟩
      · exact ⟨hblank, by simpa using hcircular⟩
      · exact hrestorable child hchild node hbelow

theorem restorable_of_runs_subtreesFromLast (trees : List CallTree) {g after : CallGraph}
    (hblank : ∀ tree ∈ trees, Text.isBlank tree.signature = false)
    (h : Runs (subtreesFromLast trees) g after) : ∀ tree ∈ trees, tree.Restorable := by
  cases trees with
  | nil => simp
  | cons tree rest =>
      rw [subtreesFromLast] at h
      obtain ⟨hroot, hothers⟩ := List.forall_mem_cons.mp hblank
      obtain ⟨middle, hrest, htree⟩ := h.of_bind
      exact List.forall_mem_cons.mpr ⟨restorable_of_runs_subtree tree hroot htree,
        restorable_of_runs_subtreesFromLast rest hothers hrest⟩

end

theorem of_runs_tree {root : CallTree} {g after : CallGraph} (h : Runs (tree root) g after) :
    root.Restorable ∧ RootMatches root := by
  unfold tree at h
  obtain ⟨hblank, h⟩ := h.of_guard Runs.not_throw_bind
  dsimp only at h
  split at h
  · rename_i entry hentry
    obtain ⟨hmatch, h⟩ := h.of_guard Runs.not_throw_bind
    refine ⟨restorable_of_runs_subtree root hblank h, fun other hother => ?_⟩
    rw [hentry] at hother
    cases hother
    simpa using hmatch
  · rename_i hnone
    refine ⟨restorable_of_runs_subtree root hblank h, fun other hother => ?_⟩
    rw [hnone] at hother
    cases hother

theorem of_graph_eq_ok {trees : List CallTree} {entries : List EntryPoint} {g after : CallGraph}
    (h : graph g trees entries = .ok after) :
    (∀ entry ∈ entries, Text.isBlank entry.signature = false) ∧
      ∀ root ∈ trees, root.Restorable ∧ RootMatches root := by
  have hall : Runs (all trees entries) g after := by
    unfold graph into at h
    split at h
    · rename_i heq
      cases h
      exact heq
    · cases h
  obtain ⟨middle, hentries, htrees⟩ := hall.of_bind
  refine ⟨fun entry hentry => ?_, fun root hroot => ?_⟩
  · obtain ⟨before, next, hruns⟩ := hentries.of_forM entry hentry
    exact (hruns.of_guard Runs.not_throw).1
  · obtain ⟨before, next, hruns⟩ := htrees.of_forM root hroot
    exact of_runs_tree hruns

end Restore

namespace Snapshot

/-- Something in a snapshot that no graph can be restored from. -/
inductive Faulty (snapshot : Snapshot) : Prop where
  | version (h : snapshot.version ≠ currentVersion)
  | blankKey {key : String} (hkey : key ∈ snapshot.nodes.keys) (h : Text.isBlank key = true)
  | blankEntryPoint {entry : EntryPoint} (hentry : entry ∈ snapshot.entryPoints)
      (h : Text.isBlank entry.signature = true)
  | blankNode {root node : CallTree} (hroot : root ∈ snapshot.trees) (hnode : root.HasNode node)
      (h : Text.isBlank node.signature = true)
  | circularWithChildren {root node : CallTree} (hroot : root ∈ snapshot.trees)
      (hnode : root.HasNode node) (hcircular : node.circular = true) (h : node.children ≠ [])
  | rootMismatch {root : CallTree} {entry : EntryPoint} (hroot : root ∈ snapshot.trees)
      (hentry : root.entryPoint = some entry) (h : entry.signature ≠ root.signature)

theorem not_faulty_iff {snapshot : Snapshot} :
    ¬ snapshot.Faulty ↔
      snapshot.validate = .ok () ∧
        (∀ entry ∈ snapshot.entryPoints, Text.isBlank entry.signature = false) ∧
        ∀ root ∈ snapshot.trees, root.Restorable ∧ Restore.RootMatches root := by
  rw [validate_eq_ok_iff]
  constructor
  · intro h
    refine ⟨⟨?_, fun key hkey => ?_⟩, fun entry hentry => ?_, fun root hroot =>
      ⟨fun node hnode => ⟨?_, fun hcircular => ?_⟩, fun entry hentry => ?_⟩⟩
    · by_contra hversion
      exact h (.version hversion)
    · exact Bool.eq_false_iff.mpr fun hblank => h (.blankKey hkey hblank)
    · exact Bool.eq_false_iff.mpr fun hblank => h (.blankEntryPoint hentry hblank)
    · exact Bool.eq_false_iff.mpr fun hblank => h (.blankNode hroot hnode hblank)
    · by_contra hchildren
      exact h (.circularWithChildren hroot hnode hcircular hchildren)
    · by_contra hmismatch
      exact h (.rootMismatch hroot hentry hmismatch)
  · rintro ⟨⟨hversion, hkeys⟩, hentries, htrees⟩ hfaulty
    cases hfaulty with
    | version h => exact h hversion
    | blankKey hkey h => simp [hkeys _ hkey] at h
    | blankEntryPoint hentry h => simp [hentries _ hentry] at h
    | blankNode hroot hnode h => simp [((htrees _ hroot).1 _ hnode).1] at h
    | circularWithChildren hroot hnode hcircular h =>
        exact h (((htrees _ hroot).1 _ hnode).2 hcircular)
    | rootMismatch hroot hentry h => exact h ((htrees _ hroot).2 _ hentry)

theorem restore_eq_ok_iff {snapshot : Snapshot} :
    (∃ a, Analysis.restore snapshot = .ok a) ↔ ¬ snapshot.Faulty := by
  rw [not_faulty_iff]
  constructor
  · rintro ⟨a, h⟩
    obtain ⟨g, hgraph, -⟩ := bind_eq_ok.mp h
    obtain ⟨⟨⟩, hvalid, hgraph⟩ := bind_eq_ok.mp hgraph
    exact ⟨hvalid, Restore.of_graph_eq_ok hgraph⟩
  · rintro ⟨hvalid, hentries, htrees⟩
    obtain ⟨g, hgraph, -⟩ := Restore.restored_graph hentries
      (fun root hroot => (htrees root hroot).1) (fun root hroot => (htrees root hroot).2)
      snapshot.metadataGraph
    exact ⟨_, bind_eq_ok.mpr ⟨g, bind_eq_ok.mpr ⟨(), hvalid, hgraph⟩, rfl⟩⟩

end Snapshot

end CallTrace
