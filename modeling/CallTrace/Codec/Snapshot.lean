import CallTrace.Codec.Tree
import CallTrace.Snapshot

namespace CallTrace

open Json

namespace NodeMetadata

def toJson (info : NodeMetadata) : Value :=
  .obj
    [("class_name", .str info.className), ("file_path", .str info.filePath),
     ("layer", .str info.layer.label)]

def layout (levels : Nat) : Layout [String, String, Layer] :=
  .cons (Decode.required "class_name" Decode.text levels) <|
  .cons (Decode.required "file_path" Decode.text levels) <|
  .cons (Decode.withDefault "layer" Layer.decode .unknown levels) .nil

def ofRow : Row [String, String, Layer] → NodeMetadata
  | (className, filePath, layer, ()) => { className, filePath, layer }

def decode : Decoder NodeMetadata :=
  Decode.record layout ofRow

end NodeMetadata

namespace Snapshot

/-- Versions fit in 32 bits. -/
def versionBound : Nat := 0x100000000

def toJson (snapshot : Snapshot) : Value :=
  .obj
    [("version", .num snapshot.version), ("max_depth", .num snapshot.maxDepth),
     ("entry_points", .list EntryPoint.toJson snapshot.entryPoints),
     ("trees", .arr (CallTree.toJsonList snapshot.trees)),
     ("nodes", .obj (snapshot.nodes.entries.map fun entry => (entry.1, entry.2.toJson)))]

def toText (snapshot : Snapshot) : String :=
  snapshot.toJson.pretty

def layout (levels : Nat) :
    Layout [Nat, Nat, List EntryPoint, List CallTree, SortedMap NodeMetadata] :=
  .cons (Decode.required "version" (Decode.natBelow versionBound) levels) <|
  .cons (Decode.required "max_depth" (Decode.natBelow depthBound) levels) <|
  .cons (Decode.required "entry_points" (Decode.list EntryPoint.decode) levels) <|
  .cons (Decode.required "trees" (Decode.list CallTree.decode) levels) <|
  .cons (Decode.withDefault "nodes" (Decode.dictionary NodeMetadata.decode) .empty levels) .nil

def ofRow : Row [Nat, Nat, List EntryPoint, List CallTree, SortedMap NodeMetadata] → Snapshot
  | (version, maxDepth, entryPoints, trees, nodes, ()) =>
      { version, maxDepth, entryPoints, trees, nodes }

def decode : Decoder Snapshot :=
  Decode.record layout ofRow

def ofDocument (document : Document) : Except SnapshotError Snapshot :=
  match document.decode decode with
  | .error _ => .error .malformed
  | .ok snapshot => do
      snapshot.validate
      return snapshot

def ofText (text : String) : Except SnapshotError Snapshot :=
  ofDocument (.ofString text)

def ofBytes (bytes : ByteArray) : Except SnapshotError Snapshot :=
  ofDocument (.ofBytes bytes)

end Snapshot

end CallTrace
