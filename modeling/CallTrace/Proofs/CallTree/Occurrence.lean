import CallTrace.CallTree

namespace CallTrace.CallTree

mutual

/-- Every node of a tree with the signatures above it, the outermost first; parents before
children. -/
def occurrences (above : List Signature) : CallTree → List (List Signature × CallTree)
  | ⟨s, l, c, children, e⟩ =>
      (above, ⟨s, l, c, children, e⟩) :: occurrencesList (above ++ [s]) children

def occurrencesList (above : List Signature) :
    List CallTree → List (List Signature × CallTree)
  | [] => []
  | child :: rest => child.occurrences above ++ occurrencesList above rest

end

def paths (tree : CallTree) : List (List Signature) :=
  (tree.occurrences []).map fun row => row.1 ++ [row.2.signature]

theorem occurrencesList_eq_flatMap (above : List Signature) (trees : List CallTree) :
    occurrencesList above trees = trees.flatMap (occurrences above) := by
  induction trees with
  | nil => rfl
  | cons child rest ih => rw [occurrencesList, ih, List.flatMap_cons]

theorem occurrences_eq (above : List Signature) (tree : CallTree) :
    tree.occurrences above =
      (above, tree) :: tree.children.flatMap (occurrences (above ++ [tree.signature])) := by
  cases tree
  rw [occurrences, occurrencesList_eq_flatMap]

theorem mem_occurrences_iff {above : List Signature} {tree : CallTree}
    {row : List Signature × CallTree} :
    row ∈ tree.occurrences above ↔
      row = (above, tree) ∨
        ∃ child ∈ tree.children, row ∈ child.occurrences (above ++ [tree.signature]) := by
  rw [occurrences_eq, List.mem_cons, List.mem_flatMap]

inductive HasNode : CallTree → CallTree → Prop
  | root (tree : CallTree) : HasNode tree tree
  | inner {tree child node : CallTree} :
      child ∈ tree.children → HasNode child node → HasNode tree node

theorem hasNode_iff {tree node : CallTree} :
    tree.HasNode node ↔ node = tree ∨ ∃ child ∈ tree.children, child.HasNode node := by
  constructor
  · intro h
    rcases h with _ | ⟨hchild, hnode⟩
    · exact .inl rfl
    · exact .inr ⟨_, hchild, hnode⟩
  · intro h
    rcases h with rfl | ⟨child, hchild, hnode⟩
    · exact .root _
    · exact .inner hchild hnode

theorem HasNode.ofEntry {tree node : CallTree} {entry : Option EntryPoint}
    (h : HasNode { tree with entryPoint := entry } node) :
    ∃ entry', tree.HasNode { node with entryPoint := entry' } := by
  cases tree with
  | mk s l c children e =>
      rcases hasNode_iff.mp h with rfl | ⟨child, hchild, hnode⟩
      · exact ⟨e, .root _⟩
      · cases node with
        | mk _ _ _ _ e' => exact ⟨e', .inner hchild hnode⟩

theorem HasNode.toEntry {tree node : CallTree} (h : tree.HasNode node)
    (entry : Option EntryPoint) :
    ∃ entry', HasNode { tree with entryPoint := entry } { node with entryPoint := entry' } := by
  rcases hasNode_iff.mp h with rfl | ⟨child, hchild, hnode⟩
  · exact ⟨entry, .root _⟩
  · cases node with
    | mk _ _ _ _ e' => exact ⟨e', .inner hchild hnode⟩

mutual

theorem hasNode_iff_occurrence (above : List Signature) (tree node : CallTree) :
    tree.HasNode node ↔ ∃ path, (path, node) ∈ tree.occurrences above := by
  cases tree with
  | mk s l c children e =>
      rw [hasNode_iff, exists_hasNode_iff_occurrence (above ++ [s]) children node]
      simp only [occurrences, List.mem_cons, Prod.mk.injEq, exists_or]
      simp

theorem exists_hasNode_iff_occurrence (above : List Signature) (trees : List CallTree)
    (node : CallTree) :
    (∃ tree ∈ trees, tree.HasNode node) ↔
      ∃ path, (path, node) ∈ occurrencesList above trees := by
  cases trees with
  | nil => simp [occurrencesList]
  | cons child rest =>
      simp only [occurrencesList, List.mem_append, exists_or, List.mem_cons, exists_eq_or_imp]
      rw [hasNode_iff_occurrence above child node,
        exists_hasNode_iff_occurrence above rest node]

end

mutual

theorem mem_preorder_iff (level : Nat) (tree node : CallTree) :
    (∃ depth, (depth, node) ∈ tree.preorder level) ↔ tree.HasNode node := by
  cases tree with
  | mk s l c children e =>
      rw [hasNode_iff, ← mem_preorderList_iff (level + 1) children node]
      simp only [preorder, List.mem_cons, Prod.mk.injEq, exists_or]
      simp

theorem mem_preorderList_iff (level : Nat) (trees : List CallTree) (node : CallTree) :
    (∃ depth, (depth, node) ∈ preorderList level trees) ↔ ∃ tree ∈ trees, tree.HasNode node := by
  cases trees with
  | nil => simp [preorderList]
  | cons child rest =>
      simp only [preorderList, List.mem_append, exists_or, List.mem_cons, exists_eq_or_imp]
      rw [mem_preorder_iff level child node, mem_preorderList_iff level rest node]

end

theorem mem_signatures {tree : CallTree} {s : Signature} :
    s ∈ tree.signatures ↔ ∃ node, tree.HasNode node ∧ node.signature = s := by
  simp only [signatures, List.mem_map, Prod.exists, ← mem_preorder_iff 0]
  constructor
  · intro h
    obtain ⟨depth, node, hnode, rfl⟩ := h
    exact ⟨node, ⟨depth, hnode⟩, rfl⟩
  · intro h
    obtain ⟨node, ⟨depth, hnode⟩, rfl⟩ := h
    exact ⟨depth, node, hnode, rfl⟩

/-- Some node shows a child: the first signature is the node's, the second the child's. -/
def Links (tree : CallTree) (u v : Signature) : Prop :=
  ∃ node, tree.HasNode node ∧ node.signature = u ∧ v ∈ node.childSignatures

theorem links_iff {tree : CallTree} {u v : Signature} :
    tree.Links u v ↔
      (tree.signature = u ∧ v ∈ tree.childSignatures) ∨
        ∃ child ∈ tree.children, child.Links u v := by
  constructor
  · intro h
    obtain ⟨node, hnode, hu, hv⟩ := h
    rcases hasNode_iff.mp hnode with rfl | ⟨child, hchild, hnode⟩
    · exact .inl ⟨hu, hv⟩
    · exact .inr ⟨child, hchild, node, hnode, hu, hv⟩
  · intro h
    rcases h with ⟨hu, hv⟩ | ⟨child, hchild, node, hnode, hu, hv⟩
    · exact ⟨tree, .root tree, hu, hv⟩
    · exact ⟨node, .inner hchild hnode, hu, hv⟩

theorem mem_signatures_withEntry {tree : CallTree} (entry : Option EntryPoint) {s : Signature} :
    s ∈ signatures { tree with entryPoint := entry } ↔ s ∈ tree.signatures := by
  rw [mem_signatures, mem_signatures]
  constructor
  · intro h
    obtain ⟨node, hnode, hs⟩ := h
    obtain ⟨entry', hnode⟩ := hnode.ofEntry
    exact ⟨_, hnode, hs⟩
  · intro h
    obtain ⟨node, hnode, hs⟩ := h
    obtain ⟨entry', hnode⟩ := hnode.toEntry entry
    exact ⟨_, hnode, hs⟩

theorem links_withEntry {tree : CallTree} (entry : Option EntryPoint) {u v : Signature} :
    Links { tree with entryPoint := entry } u v ↔ tree.Links u v := by
  constructor
  · intro h
    obtain ⟨node, hnode, hu, hv⟩ := h
    obtain ⟨entry', hnode⟩ := hnode.ofEntry
    exact ⟨_, hnode, hu, hv⟩
  · intro h
    obtain ⟨node, hnode, hu, hv⟩ := h
    obtain ⟨entry', hnode⟩ := hnode.toEntry entry
    exact ⟨_, hnode, hu, hv⟩

end CallTrace.CallTree
