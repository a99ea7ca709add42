import CallTrace.CallGraph
import CallTrace.EntryPoint
import CallTrace.Json.Decode
import CallTrace.Json.Value

namespace CallTrace

open Json

namespace EntryPoint

def toJson (entry : EntryPoint) : Value :=
  .obj
    [("kind", .str entry.kind), ("path", .str entry.path), ("signature", .str entry.signature),
     ("class_name", .str entry.className), ("file_path", .str entry.filePath)]

def layout (levels : Nat) : Layout [String, String, String, String, String] :=
  .cons (Decode.required "kind" Decode.text levels) <|
  .cons (Decode.withDefault "path" Decode.text "" levels) <|
  .cons (Decode.required "signature" Decode.text levels) <|
  .cons (Decode.required "class_name" Decode.text levels) <|
  .cons (Decode.withDefault "file_path" Decode.text "" levels) .nil

def ofRow : Row [String, String, String, String, String] → EntryPoint
  | (kind, path, signature, className, filePath, ()) =>
      { kind, path, signature, className, filePath }

def decode : Decoder EntryPoint :=
  Decode.record layout ofRow

end EntryPoint

namespace Layer

def decode : Decoder Layer
  | levels, r => (Decode.text levels r).map Layer.mk

end Layer

namespace GraphNode

def toJson (node : GraphNode) : Value :=
  .obj
    [("signature", .str node.signature), ("class_name", .str node.className),
     ("file_path", .str node.filePath), ("layer", .str node.layer.label)]

def layout (levels : Nat) : Layout [String, String, String, Layer] :=
  .cons (Decode.required "signature" Decode.text levels) <|
  .cons (Decode.required "class_name" Decode.text levels) <|
  .cons (Decode.required "file_path" Decode.text levels) <|
  .cons (Decode.required "layer" Layer.decode levels) .nil

def ofRow : Row [String, String, String, Layer] → GraphNode
  | (signature, className, filePath, layer, ()) => { signature, className, filePath, layer }

def decode : Decoder GraphNode :=
  Decode.record layout ofRow

end GraphNode

namespace CallEdge

def toJson (edge : CallEdge) : Value :=
  .obj [("caller", .str edge.caller), ("callee", .str edge.callee)]

def layout (levels : Nat) : Layout [String, String] :=
  .cons (Decode.required "caller" Decode.text levels) <|
  .cons (Decode.required "callee" Decode.text levels) .nil

def ofRow : Row [String, String] → CallEdge
  | (caller, callee, ()) => { caller, callee }

def decode : Decoder CallEdge :=
  Decode.record layout ofRow

end CallEdge

end CallTrace
