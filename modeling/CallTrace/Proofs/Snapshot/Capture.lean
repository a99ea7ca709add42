import CallTrace.Proofs.CallGraph.Content
import CallTrace.Snapshot.Restore

namespace CallTrace

namespace Snapshot

theorem get?_noteNode (g : CallGraph) (nodes : SortedMap NodeMetadata) (s t : Signature) :
    (noteNode g nodes s).get? t =
      (nodes.get? t).or (if t = s then (g.node? s).map .ofNode else none) := by
  unfold noteNode SortedMap.contains
  by_cases heq : t = s
  · subst heq
    cases hnoted : nodes.get? t with
    | some noted => simp [hnoted]
    | none =>
        cases hnode : g.node? t with
        | none => simp [hnoted]
        | some node => simp [SortedMap.get?_insert]
  · rw [if_neg heq, Option.or_none]
    split
    · rfl
    · split
      · rw [SortedMap.get?_insert, if_neg heq]
      · rfl

theorem get?_noteNodes (g : CallGraph) (signatures : List Signature)
    (nodes : SortedMap NodeMetadata) (t : Signature) :
    (signatures.foldl (noteNode g) nodes).get? t =
      (nodes.get? t).or (if t ∈ signatures then (g.node? t).map .ofNode else none) := by
  induction signatures generalizing nodes with
  | nil => simp
  | cons s rest ih =>
      rw [List.foldl_cons, ih, get?_noteNode]
      by_cases heq : t = s
      · subst heq
        cases nodes.get? t <;> cases g.node? t <;> simp
      · simp [heq]

theorem get?_capture (maxDepth : Nat) (entries : List EntryPoint) (trees : List CallTree)
    (g : CallGraph) (t : Signature) :
    (capture maxDepth entries trees g).nodes.get? t =
      if ∃ tree ∈ trees, t ∈ tree.signatures then (g.node? t).map .ofNode else none := by
  simp only [capture, get?_noteNodes, SortedMap.get?_empty, Option.none_or, List.mem_flatMap]

theorem capture_congr {maxDepth : Nat} {entries : List EntryPoint} {trees : List CallTree}
    {g h : CallGraph}
    (hnode : ∀ tree ∈ trees, ∀ s ∈ tree.signatures, h.node? s = g.node? s) :
    capture maxDepth entries trees h = capture maxDepth entries trees g := by
  have hnotes : (trees.flatMap CallTree.signatures).foldl (noteNode h) .empty =
      (trees.flatMap CallTree.signatures).foldl (noteNode g) .empty := by
    apply List.foldl_ext
    intro nodes s hs
    obtain ⟨tree, htree, hs⟩ := List.mem_flatMap.mp hs
    rw [noteNode, noteNode, hnode tree htree s hs]
  simp only [capture, hnotes]

theorem validate_eq_ok {snapshot : Snapshot} (hversion : snapshot.version = currentVersion)
    (hkeys : ∀ s value, snapshot.nodes.get? s = some value → Text.isBlank s = false) :
    snapshot.validate = .ok () := by
  have hfind : snapshot.nodes.keys.find? Text.isBlank = none := by
    rw [List.find?_eq_none]
    intro s hs
    obtain ⟨value, hvalue⟩ := SortedMap.mem_keys.mp hs
    simp [hkeys s value hvalue]
  simp [validate, hversion, hfind]

def metadataNode (s : Signature) (metadata : NodeMetadata) : GraphNode :=
  ⟨s, metadata.className, metadata.filePath, metadata.layer⟩

theorem metadataNode_ofNode {g : CallGraph} {s : Signature} {n : GraphNode}
    (hn : g.node? s = some n) : metadataNode s (.ofNode n) = n := by
  obtain rfl := CallGraph.signature_of_node? hn
  rfl

theorem metadataGraph_eq (snapshot : Snapshot) :
    snapshot.metadataGraph =
      CallGraph.empty.insertNodes (fun entry => metadataNode entry.1 entry.2)
        snapshot.nodes.entries := rfl

theorem node?_metadataGraph (snapshot : Snapshot) (s : Signature) :
    snapshot.metadataGraph.node? s = (snapshot.nodes.get? s).map (metadataNode s) := by
  rw [metadataGraph_eq, CallGraph.node?_insertNodes]
  change (snapshot.nodes.entries.find? fun entry => entry.1 == s).map _ =
    (snapshot.nodes.entries.lookup s).map _
  induction snapshot.nodes.entries with
  | nil => rfl
  | cons entry rest ih =>
      rw [List.find?_cons, lookup_cons_eq]
      by_cases heq : entry.1 = s
      · simp [heq]
      · rw [beq_false_of_ne heq, if_neg (Ne.symm heq)]
        exact ih

theorem wellFormed_metadataGraph (snapshot : Snapshot) :
    snapshot.metadataGraph.WellFormed :=
  CallGraph.wellFormed_empty.insertNodes _ snapshot.nodes.entries

theorem hasEdge_metadataGraph (snapshot : Snapshot) (u v : Signature) :
    snapshot.metadataGraph.hasEdge u v = false := by
  rw [metadataGraph_eq, CallGraph.hasEdge_insertNodes]
  rfl

end Snapshot

end CallTrace
