import CallTrace.Snapshot

namespace CallTrace

/-- Restoring grows a graph, and keeps what it has so far when it fails. -/
abbrev RestoreM := ExceptT SnapshotError (StateM CallGraph)

namespace CallGraph

/-- Takes a tree node into the graph. A node that is there keeps its place and file, and gets the
layer only if it has none. -/
def restoreNode (g : CallGraph) (tree : CallTree) : CallGraph :=
  match g.node? tree.signature with
  | none =>
      g.insertNode
        ⟨tree.signature, (Signature.owner? tree.signature).getD unknownText, unknownText,
          tree.layer⟩
  | some node => if node.layer.isUnknown then g.setLayer tree.signature tree.layer else g

end CallGraph

namespace Restore

def entryPoint (entry : EntryPoint) : RestoreM Unit :=
  if Text.isBlank entry.signature then
    throw (.emptySignature ("entry point " ++ entry.descriptor))
  else modify fun g => g.insertNode ⟨entry.signature, entry.className, entry.filePath, .unknown⟩

def child (parent : Signature) (tree : CallTree) : RestoreM Unit :=
  if Text.isBlank tree.signature then throw (.emptySignature parent)
  else modify fun g => (g.restoreNode tree).link parent tree.signature

mutual

/-- A node with all its children, then the subtrees, the last one first. -/
def subtree : CallTree → RestoreM Unit
  | ⟨signature, layer, circular, children, entry⟩ => do
      if circular && !children.isEmpty then throw (.circularWithChildren signature)
      modify fun g => g.restoreNode ⟨signature, layer, circular, children, entry⟩
      children.forM (child signature)
      subtreesFromLast children

def subtreesFromLast : List CallTree → RestoreM Unit
  | [] => pure ()
  | tree :: rest => do
      subtreesFromLast rest
      subtree tree

end

def tree (tree : CallTree) : RestoreM Unit := do
  if Text.isBlank tree.signature then throw (.emptySignature "<root>")
  match tree.entryPoint with
  | some entry =>
      if entry.signature != tree.signature then
        throw (.rootMismatch tree.signature entry.signature)
  | none => pure ()
  subtree tree

/-- Entry points first, then the trees in order. -/
def all (trees : List CallTree) (entries : List EntryPoint) : RestoreM Unit := do
  entries.forM entryPoint
  trees.forM tree

/-- Restores into a graph; the graph is what was restored, also after a failure. -/
def into (g : CallGraph) (trees : List CallTree) (entries : List EntryPoint) :
    Except SnapshotError Unit × CallGraph :=
  (all trees entries).run.run g

/-- Restores a graph, or tells why it cannot be done. -/
def graph (g : CallGraph) (trees : List CallTree) (entries : List EntryPoint) :
    Except SnapshotError CallGraph :=
  match into g trees entries with
  | (.ok (), g) => .ok g
  | (.error e, _) => .error e

end Restore

namespace Snapshot

/-- A graph with the nodes the metadata lists, and no edges. -/
def metadataGraph (snapshot : Snapshot) : CallGraph :=
  snapshot.nodes.entries.foldl
    (fun g entry =>
      g.insertNode ⟨entry.1, entry.2.className, entry.2.filePath, entry.2.layer⟩)
    .empty

/-- The graph of a snapshot: metadata first, then the links of the trees. -/
def restoreGraph (snapshot : Snapshot) : Except SnapshotError CallGraph := do
  snapshot.validate
  Restore.graph snapshot.metadataGraph snapshot.trees snapshot.entryPoints

end Snapshot

end CallTrace
