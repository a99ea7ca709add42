import CallTrace.Proofs.Analysis.Trees
import CallTrace.Proofs.CallTree.Depth
import CallTrace.Proofs.Codec.Snapshot
import CallTrace.Proofs.Snapshot.Capture

/-!
Saved snapshots as texts. A level of a tree takes two levels of nesting, the node and its list of
children, so that a snapshot is read again only if its trees stay below half the limit of the
decoder. That is less than the depth a snapshot may be saved with.
-/

namespace CallTrace

open Json

namespace CallTree

def Plain (tree : CallTree) : Prop :=
  ∀ node, tree.HasNode node → node.entryPoint = none

theorem Plain.child {tree child : CallTree} (h : tree.Plain) (hchild : child ∈ tree.children) :
    child.Plain :=
  fun node hnode => h node (.inner hchild hnode)

theorem nesting_toJson (signature : Signature) (layer : Layer) (circular : Bool)
    (children : List CallTree) (entryPoint : Option EntryPoint) :
    (toJson ⟨signature, layer, circular, children, entryPoint⟩).nesting =
      max (if children.isEmpty then 0 else Value.nestingItems (toJsonList children) + 1)
        (if entryPoint.isSome then 1 else 0) + 1 := by
  cases circular <;> cases children <;> cases entryPoint <;>
    simp [toJson, Value.nesting, Value.nestingFields, EntryPoint.nesting_toJson]

mutual

theorem nesting_plain (tree : CallTree) (h : tree.Plain) :
    tree.toJson.nesting = 2 * tree.depth + 1 := by
  cases tree with
  | mk signature layer circular children entryPoint =>
      obtain rfl : entryPoint = none := h _ (.root _)
      have hchildren := nestingItems_plain children fun child hchild => h.child hchild
      rw [nesting_toJson, hchildren, depth]
      cases children with
      | nil => rfl
      | cons child rest =>
          have hpos : child.depth + 1 ≤ depthList (child :: rest) := le_max_left ..
          simp only [List.isEmpty_cons, Option.isSome_none, Bool.false_eq_true, if_false]
          omega

theorem nestingItems_plain (trees : List CallTree) (h : ∀ tree ∈ trees, tree.Plain) :
    Value.nestingItems (toJsonList trees) = 2 * depthList trees - 1 := by
  cases trees with
  | nil => rfl
  | cons tree rest =>
      obtain ⟨htree, hrest⟩ := List.forall_mem_cons.mp h
      rw [toJsonList, Value.nestingItems, nesting_plain tree htree, nestingItems_plain rest hrest,
        depthList]
      omega

end

theorem Plain.nesting_withEntry {tree : CallTree} (h : tree.Plain) (entry : EntryPoint) :
    (toJson { tree with entryPoint := some entry }).nesting = max (2 * tree.depth) 1 + 1 := by
  cases tree with
  | mk signature layer circular children entryPoint =>
      obtain rfl : entryPoint = none := h _ (.root _)
      have hplain := nesting_plain _ h
      rw [nesting_toJson] at hplain ⊢
      simp only [Option.isSome_none, Bool.false_eq_true, if_false, Option.isSome_some,
        if_true] at hplain ⊢
      omega

end CallTree

namespace CallGraph

theorem branch_entryPoint (g : CallGraph) (levels : Nat) (path : List Signature)
    (t : Signature) : (g.branch levels path t).entryPoint = none := by
  unfold branch
  split
  · rfl
  · cases levels <;> rfl

theorem plain_unfold (g : CallGraph) (depth : Nat) (s : Signature) :
    (g.unfold depth [s] s).Plain := by
  intro node hnode
  obtain ⟨path, v, -, rfl⟩ := hasNode_unfold.mp hnode
  exact branch_entryPoint ..

theorem depth_rooted (g : CallGraph) (depth : Nat) (entry : EntryPoint) :
    (g.rooted depth entry).depth = (g.unfold depth [entry.signature] entry.signature).depth := by
  unfold rooted
  cases g.unfold depth [entry.signature] entry.signature
  rfl

theorem nesting_rooted (g : CallGraph) (depth : Nat) (entry : EntryPoint) :
    (g.rooted depth entry).toJson.nesting = max (2 * (g.rooted depth entry).depth) 1 + 1 := by
  rw [depth_rooted]
  exact (plain_unfold g depth entry.signature).nesting_withEntry entry

/-- A line of calls that never meets itself is unfolded to the last level. -/
theorem le_depth_unfold {g : CallGraph} {line : Nat → Signature} {n : Nat}
    (hline : Function.Injective line)
    (hedges : ∀ i < n, g.hasEdge (line i) (line (i + 1)) = true) {levels i : Nat}
    {path : List Signature} (hpath : ∀ s ∈ path, ∃ j ≤ i, line j = s) (hlevels : i + levels ≤ n) :
    levels ≤ (g.unfold levels path (line i)).depth := by
  induction levels generalizing i path with
  | zero => exact Nat.zero_le _
  | succ levels ih =>
      have hfresh : line (i + 1) ∉ path := by
        intro hmem
        obtain ⟨j, hj, heq⟩ := hpath _ hmem
        have := hline heq
        omega
      have hnext : ∀ s ∈ line (i + 1) :: path, ∃ j ≤ i + 1, line j = s := by
        intro s hs
        rcases List.mem_cons.mp hs with rfl | hs
        · exact ⟨i + 1, Nat.le_refl _, rfl⟩
        · obtain ⟨j, hj, heq⟩ := hpath s hs
          exact ⟨j, Nat.le_succ_of_le hj, heq⟩
      have hdeep := ih hnext (by omega)
      have hshown : g.unfold levels (line (i + 1) :: path) (line (i + 1)) ∈
          (g.unfold (levels + 1) path (line i)).children := by
        refine List.mem_map.mpr ⟨line (i + 1), mem_successors.mpr (hedges i (by omega)), ?_⟩
        exact if_neg hfresh
      have hdepth := CallTree.depthList_le_iff.mp
        (Nat.le_refl (g.unfold (levels + 1) path (line i)).depth) _ hshown
      omega

end CallGraph

namespace Analysis

theorem exists_save_eq (a : Analysis) {depth : Nat} (hdepth : depth ≤ maxTreeDepth) :
    ∃ trees, a.save depth = .ok (.capture depth a.entryPoints trees a.graph) ∧
      ∀ tree, tree ∈ trees ↔ ∃ entry ∈ a.entryPoints,
        a.graph.hasNode entry.signature = true ∧ a.graph.rooted depth entry = tree := by
  refine ⟨_, by rw [save, trees, checkDepth_eq_ok hdepth]; rfl, fun tree => ?_⟩
  rw [List.mem_filterMap]
  refine exists_congr fun entry => and_congr_right fun _ => ?_
  cases hroot : a.graph.hasNode entry.signature with
  | false => simp [CallGraph.trace, CallGraph.tree?_eq_none hroot, Except.toOption]
  | true =>
      simp [CallGraph.trace, CallGraph.tree?_eq_some (lt_depthBound hdepth) hroot,
        Except.toOption, CallGraph.rooted]

theorem validate_capture {a : Analysis}
    (hnamed : ∀ s, a.graph.hasNode s = true → Text.isBlank s = false) (depth : Nat)
    (trees : List CallTree) :
    (Snapshot.capture depth a.entryPoints trees a.graph).validate = .ok () := by
  apply Snapshot.validate_eq_ok rfl
  intro s value hvalue
  rw [Snapshot.get?_capture] at hvalue
  obtain ⟨-, hnode⟩ := Option.ite_none_right_eq_some.mp hvalue
  obtain ⟨node, hnode, -⟩ := Option.map_eq_some_iff.mp hnode
  apply hnamed
  rw [← CallGraph.isSome_node?, hnode]
  rfl

/-- The text of a snapshot is read back unless a tree of an entry point is too deep. -/
theorem ofText_capture {a : Analysis}
    (hnamed : ∀ s, a.graph.hasNode s = true → Text.isBlank s = false) {depth : Nat}
    (hdepth : depth ≤ maxTreeDepth) {trees : List CallTree}
    (htrees : ∀ tree ∈ trees, ∃ entry ∈ a.entryPoints,
      a.graph.hasNode entry.signature = true ∧ a.graph.rooted depth entry = tree) :
    Snapshot.ofText (Snapshot.capture depth a.entryPoints trees a.graph).toText =
      if ∀ tree ∈ trees, 2 * tree.depth + 3 ≤ maxLevels then
        .ok (.capture depth a.entryPoints trees a.graph)
      else .error .malformed := by
  have hversion : Snapshot.currentVersion < Snapshot.versionBound := by decide
  have hbound : depth < depthBound := lt_depthBound hdepth
  have hfits : (Snapshot.capture depth a.entryPoints trees a.graph).toJson.nesting ≤ maxLevels ↔
      ∀ tree ∈ trees, 2 * tree.depth + 3 ≤ maxLevels := by
    rw [Snapshot.nesting_toJson_le_iff _ (by decide)]
    refine forall₂_congr fun tree htree => ?_
    obtain ⟨entry, -, -, rfl⟩ := htrees tree htree
    rw [CallGraph.nesting_rooted, maxLevels]
    omega
  rw [Snapshot.ofText_toText hversion hbound, validate_capture hnamed]
  simp only [hfits]
  rfl

/-- Every snapshot that can be saved has trees within the depth it was saved with. Its text is read
back to the same snapshot, also by its bytes, exactly if no tree is so deep that its text nests
beyond what the decoder allows. -/
theorem saved_text_reads_back (a : Analysis)
    (hnamed : ∀ s, a.graph.hasNode s = true → Text.isBlank s = false) (depth : Nat)
    (hdepth : depth ≤ maxTreeDepth) :
    ∃ snapshot, a.save depth = .ok snapshot ∧
      Snapshot.ofText snapshot.toText =
        (if ∀ tree ∈ snapshot.trees, 2 * tree.depth + 3 ≤ maxLevels then .ok snapshot
        else .error .malformed) ∧
      Snapshot.ofBytes snapshot.toText.toUTF8 = Snapshot.ofText snapshot.toText ∧
      ∀ tree ∈ snapshot.trees, tree.depth ≤ depth := by
  obtain ⟨trees, hsave, htrees⟩ := a.exists_save_eq hdepth
  have htext := ofText_capture hnamed hdepth fun tree => (htrees tree).mp
  refine ⟨_, hsave, htext, Snapshot.ofBytes_toText _, ?_⟩
  intro tree htree
  obtain ⟨entry, -, -, rfl⟩ := (htrees tree).mp htree
  rw [CallGraph.depth_rooted]
  exact CallGraph.depth_unfold_le ..

def lineMethod (i : Nat) : Signature :=
  String.ofList (List.replicate (i + 1) 'm')

theorem lineMethod_injective : Function.Injective lineMethod := by
  intro i j h
  have hchars := congrArg (fun s : String => s.toList.length) h
  simpa [lineMethod] using hchars

theorem isBlank_lineMethod (i : Nat) : Text.isBlank (lineMethod i) = false := by
  rw [lineMethod, Text.isBlank, String.toList_ofList]
  rfl

def callLine (n : Nat) : Analysis where
  graph := .ofChanges ((List.range n).map fun i => .addEdge (lineMethod i) (lineMethod (i + 1)))
  entryPoints := [⟨"BATCH", "", lineMethod 0, "", ""⟩]
  summary := {}

theorem hasEdge_callLine {n i : Nat} (hi : i < n) :
    (callLine n).graph.hasEdge (lineMethod i) (lineMethod (i + 1)) = true := by
  rw [callLine, CallGraph.hasEdge_ofChanges]
  exact List.mem_map.mpr ⟨i, List.mem_range.mpr hi, rfl⟩

theorem hasNode_callLine {n : Nat} (hn : 0 < n) :
    (callLine n).graph.hasNode (lineMethod 0) = true := by
  rw [callLine, CallGraph.hasNode_ofChanges]
  exact ⟨_, List.mem_map.mpr ⟨0, List.mem_range.mpr hn, rfl⟩, .inl rfl⟩

theorem named_callLine (n : Nat) (s : Signature) (hs : (callLine n).graph.hasNode s = true) :
    Text.isBlank s = false := by
  rw [callLine, CallGraph.hasNode_ofChanges] at hs
  obtain ⟨c, hc, hmentions⟩ := hs
  obtain ⟨i, -, rfl⟩ := List.mem_map.mp hc
  rcases hmentions with rfl | rfl
  · exact isBlank_lineMethod i
  · exact isBlank_lineMethod (i + 1)

theorem saved_text_reads_back_line :
    (∀ s, (callLine 63).graph.hasNode s = true → Text.isBlank s = false) ∧
      ∃ snapshot, (callLine 63).save 62 = .ok snapshot ∧
        Snapshot.ofText snapshot.toText = .ok snapshot ∧
        Snapshot.ofBytes snapshot.toText.toUTF8 = .ok snapshot := by
  obtain ⟨snapshot, hsave, htext, hbytes, hdepth⟩ :=
    saved_text_reads_back (callLine 63) (named_callLine 63) 62 (by decide)
  have hfits : ∀ tree ∈ snapshot.trees, 2 * tree.depth + 3 ≤ maxLevels := by
    intro tree htree
    have := hdepth tree htree
    rw [maxLevels]
    omega
  rw [if_pos hfits] at htext
  exact ⟨named_callLine 63, snapshot, hsave, htext, hbytes.trans htext⟩

/-- A line of calls that is too long to be read again can be saved all the same. -/
theorem callLine_refused {n : Nat} (hlong : maxLevels < 2 * n + 3) (hlimit : n ≤ maxTreeDepth) :
    ∃ snapshot, (callLine n).save n = .ok snapshot ∧
      Snapshot.ofText snapshot.toText = .error .malformed := by
  obtain ⟨trees, hsave, htrees⟩ := (callLine n).exists_save_eq hlimit
  have hpos : 0 < n := by
    rw [maxLevels] at hlong
    omega
  have hshown := (htrees _).mpr ⟨_, List.mem_singleton_self _, hasNode_callLine hpos, rfl⟩
  have hdeep : n ≤ ((callLine n).graph.rooted n ⟨"BATCH", "", lineMethod 0, "", ""⟩).depth := by
    rw [CallGraph.depth_rooted]
    refine CallGraph.le_depth_unfold lineMethod_injective (fun i hi => hasEdge_callLine hi) ?_
      (Nat.zero_add n).le
    intro s hs
    exact ⟨0, Nat.le_refl 0, (List.mem_singleton.mp hs).symm⟩
  refine ⟨_, hsave, ?_⟩
  rw [ofText_capture (named_callLine n) hlimit fun tree => (htrees tree).mp, if_neg]
  intro hfits
  have := hfits _ hshown
  omega

theorem saved_text_refused :
    (∀ s, (callLine 63).graph.hasNode s = true → Text.isBlank s = false) ∧ 63 ≤ maxTreeDepth ∧
      ∃ snapshot, (callLine 63).save 63 = .ok snapshot ∧
        Snapshot.ofText snapshot.toText = .error .malformed :=
  ⟨named_callLine 63, by decide, callLine_refused (by decide) (by decide)⟩

end Analysis

end CallTrace
