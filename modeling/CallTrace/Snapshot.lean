import CallTrace.CallGraph
import CallTrace.CallTree
import CallTrace.SortedMap

/-! Snapshots: the call trees of all entry points, with what is known of their methods. -/

namespace CallTrace

/-- What a snapshot keeps of a node beside its signature. -/
structure NodeMetadata where
  className : String
  filePath : String
  layer : Layer
  deriving DecidableEq, Repr

namespace NodeMetadata

def ofNode (node : GraphNode) : NodeMetadata :=
  ⟨node.className, node.filePath, node.layer⟩

end NodeMetadata

structure Snapshot where
  version : Nat
  /-- The depth the trees were cut at. -/
  maxDepth : Nat
  entryPoints : List EntryPoint
  trees : List CallTree
  nodes : SortedMap NodeMetadata := .empty
  deriving DecidableEq, Repr

/-- Why a snapshot cannot be turned back into a graph. -/
inductive SnapshotError where
  | malformed
  | unsupportedVersion (found : Nat)
  | emptySignature (parent : String)
  | circularWithChildren (signature : Signature)
  | rootMismatch (signature entryPoint : Signature)
  deriving DecidableEq, Repr

namespace Snapshot

def currentVersion : Nat := 1

/-- Notes what the graph knows of a signature, unless it is noted already. -/
def noteNode (g : CallGraph) (nodes : SortedMap NodeMetadata) (s : Signature) :
    SortedMap NodeMetadata :=
  if nodes.contains s then nodes
  else
    match g.node? s with
    | some node => nodes.insert s (.ofNode node)
    | none => nodes

/-- A snapshot of trees of a graph, with metadata for every signature in them. -/
def capture (maxDepth : Nat) (entryPoints : List EntryPoint) (trees : List CallTree)
    (g : CallGraph) : Snapshot where
  version := currentVersion
  maxDepth := maxDepth
  entryPoints := entryPoints
  trees := trees
  nodes := (trees.flatMap CallTree.signatures).foldl (noteNode g) .empty

def hexDigits (n : Nat) : List Char :=
  Nat.toDigits 16 n

/-- A blank text in quotes, with every character but the plain blank written as an escape. -/
def quoteBlank (s : String) : String :=
  let escape (c : Char) : List Char :=
    match c with
    | ' ' => [' ']
    | '\t' => ['\\', 't']
    | '\r' => ['\\', 'r']
    | '\n' => ['\\', 'n']
    | c => ['\\', 'u', '\x7b'] ++ hexDigits c.toNat ++ ['\x7d']
  String.ofList ('"' :: s.toList.flatMap escape ++ ['"'])

/-- A snapshot has the current version, and no blank signature among its metadata. -/
def validate (snapshot : Snapshot) : Except SnapshotError Unit :=
  if snapshot.version != currentVersion then .error (.unsupportedVersion snapshot.version)
  else
    match snapshot.nodes.keys.find? Text.isBlank with
    | some key => .error (.emptySignature ("node metadata " ++ quoteBlank key))
    | none => .ok ()

end Snapshot

namespace SnapshotError

def message : SnapshotError → String
  | .malformed => "malformed snapshot"
  | .unsupportedVersion found =>
      "unsupported snapshot version " ++ toString found
        ++ " (supported: " ++ toString Snapshot.currentVersion ++ ")"
  | .emptySignature parent => "tree node with empty signature under " ++ parent
  | .circularWithChildren signature =>
      "circular node " ++ signature ++ " must not have children"
  | .rootMismatch signature entryPoint =>
      "tree root " ++ signature ++ " does not match its entry point " ++ entryPoint

end SnapshotError

end CallTrace
