import CallTrace.CallTree
import CallTrace.Codec.Graph

/-! Call trees as JSON. A false flag, an empty list of children and a missing entry point are not
written. -/

namespace CallTrace.CallTree

open Json

mutual

def toJson : CallTree → Value
  | ⟨signature, layer, circular, children, entryPoint⟩ =>
      .obj ([("signature", .str signature), ("layer", .str layer.label)]
        ++ (if circular then [("circular", .bool true)] else [])
        ++ (if children.isEmpty then [] else [("children", .arr (toJsonList children))])
        ++ (entryPoint.toList.map fun entry => ("entry_point", entry.toJson)))

def toJsonList : List CallTree → List Value
  | [] => []
  | tree :: rest => tree.toJson :: toJsonList rest

end

def layout (levels : Nat) (children : Reading → Except Fault (List CallTree)) :
    Layout [String, Layer, Bool, List CallTree, Option EntryPoint] :=
  .cons (Decode.required "signature" Decode.text levels) <|
  .cons (Decode.withDefault "layer" Layer.decode .unknown levels) <|
  .cons (Decode.withDefault "circular" Decode.bool false levels) <|
  .cons ⟨"children", children, some []⟩ <|
  .cons (Decode.withDefault "entry_point" (Decode.optional EntryPoint.decode) none levels) .nil

def ofRow : Row [String, Layer, Bool, List CallTree, Option EntryPoint] → CallTree
  | (signature, layer, circular, children, entryPoint, ()) =>
      { signature, layer, circular, children, entryPoint }

def decode : Decoder CallTree
  | 0, r => .error r.tooDeep
  | 1, r => ((layout 0 fun r => .error r.tooDeep).read r).map ofRow
  | levels + 2, r =>
      ((layout (levels + 1) fun
        | .arr items closed => Decode.items (decode levels) closed items
        | r => .error r.mismatch).read r).map ofRow

end CallTrace.CallTree
