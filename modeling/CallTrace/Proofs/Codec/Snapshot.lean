import CallTrace.Codec.Snapshot
import CallTrace.Proofs.Json.Decode

/-!
The text of a snapshot is read back to the snapshot: what is left out of it is what the decoders
put in, at every level of its trees.
-/

namespace CallTrace

open Json Json.Decode

theorem Layer.decode_reads (layer : Layer) : Decoder.Reads decode (.str layer.label) layer :=
  fun levels => (limited_zero levels layer).symm

theorem EntryPoint.nodup_keys (levels : Nat) : (layout levels).keys.Nodup := by
  simp [layout, Layout.keys, required, withDefault]

theorem EntryPoint.decode_reads (entry : EntryPoint) :
    Decoder.Reads decode entry.toJson entry := by
  apply record_reads nodup_keys
  · intro levels
    exact .given (text_reads entry.kind levels) <|
      .given (text_reads entry.path levels) <|
      .given (text_reads entry.signature levels) <|
      .given (text_reads entry.className levels) <|
      .given (text_reads entry.filePath levels) .nil
  · rfl

theorem EntryPoint.nesting_toJson (entry : EntryPoint) : entry.toJson.nesting = 1 := rfl

theorem NodeMetadata.nodup_keys (levels : Nat) : (layout levels).keys.Nodup := by
  simp [layout, Layout.keys, required, withDefault]

theorem NodeMetadata.decode_reads (info : NodeMetadata) :
    Decoder.Reads decode info.toJson info := by
  apply record_reads nodup_keys
  · intro levels
    exact .given (text_reads info.className levels) <|
      .given (text_reads info.filePath levels) <|
      .given (info.layer.decode_reads levels) .nil
  · rfl

theorem NodeMetadata.nesting_toJson (info : NodeMetadata) : info.toJson.nesting = 1 := rfl

namespace CallTree

theorem toJsonList_eq_map (trees : List CallTree) : toJsonList trees = trees.map toJson := by
  induction trees with
  | nil => rfl
  | cons tree rest ih => rw [toJsonList, ih, List.map_cons]

/-- A tree is read as any record is, with its children as a list one level down. -/
theorem decode_eq_record (levels : Nat) (r : Reading) :
    decode levels r =
      record (fun levels => layout levels (Decode.list decode levels)) ofRow levels r := by
  match levels with
  | 0 => rfl
  | 1 => rfl
  | levels + 2 =>
      refine congrArg (fun children => ((layout (levels + 1) children).read r).map ofRow) ?_
      funext r
      cases r <;> rfl

theorem nodup_keys (levels : Nat) (children : Reading → Except Fault (List CallTree)) :
    (layout levels children).keys.Nodup := by
  simp [layout, Layout.keys, required, withDefault]

/-- The last two fields of a tree, each of which may be left out. -/
theorem writes_below (levels : Nat) {children : List CallTree} (entryPoint : Option EntryPoint)
    (hchildren : Decoder.Reads (Decode.list decode) (.arr (toJsonList children)) children) :
    Layout.Writes levels
      (.cons ⟨"children", Decode.list decode levels, some []⟩ <|
        .cons (withDefault "entry_point" (Decode.optional EntryPoint.decode) none levels) .nil)
      (children, entryPoint, ())
      ((if children.isEmpty then [] else [("children", .arr (toJsonList children))])
        ++ (entryPoint.toList.map fun entry => ("entry_point", entry.toJson))) := by
  have hentry : Layout.Writes levels
      (.cons (withDefault "entry_point" (Decode.optional EntryPoint.decode) none levels) .nil)
      (entryPoint, ()) (entryPoint.toList.map fun entry => ("entry_point", entry.toJson)) := by
    cases entryPoint with
    | none => exact .absent rfl .nil
    | some entry =>
        have hread := congrArg (·.map some) (entry.decode_reads levels)
        exact .given (hread.trans (map_limited ..)) .nil
  cases children with
  | nil => exact .absent rfl hentry
  | cons child rest => exact .given (hchildren levels) hentry

theorem writes_toJson (levels : Nat) (signature : Signature) (layer : Layer) (circular : Bool)
    {children : List CallTree} (entryPoint : Option EntryPoint)
    (hchildren : Decoder.Reads (Decode.list decode) (.arr (toJsonList children)) children) :
    (layout levels (Decode.list decode levels)).Writes levels
      (signature, layer, circular, children, entryPoint, ())
      ([("signature", .str signature), ("layer", .str layer.label)]
        ++ (if circular then [("circular", .bool true)] else [])
        ++ (if children.isEmpty then [] else [("children", .arr (toJsonList children))])
        ++ (entryPoint.toList.map fun entry => ("entry_point", entry.toJson))) := by
  have hbelow := writes_below levels entryPoint hchildren
  simp only [List.append_assoc]
  refine .given (text_reads signature levels) (.given (layer.decode_reads levels) ?_)
  cases circular with
  | false => exact .absent rfl hbelow
  | true => exact .given (bool_reads true levels) hbelow

mutual

theorem decode_reads (tree : CallTree) : Decoder.Reads decode tree.toJson tree := by
  cases tree with
  | mk signature layer circular children entryPoint =>
      have hchildren :
          Decoder.Reads (Decode.list decode) (.arr (toJsonList children)) children := by
        rw [toJsonList_eq_map]
        exact list_reads (decode_reads_children children)
      have hwrites := fun levels =>
        writes_toJson levels signature layer circular entryPoint hchildren
      intro levels
      rw [decode_eq_record]
      exact record_reads (fun levels => nodup_keys levels _) hwrites rfl levels

theorem decode_reads_children (children : List CallTree) :
    ∀ child ∈ children, Decoder.Reads decode child.toJson child := by
  cases children with
  | nil => simp
  | cons child rest =>
      exact List.forall_mem_cons.mpr ⟨decode_reads child, decode_reads_children rest⟩

end

end CallTree

namespace Snapshot

theorem nesting_toJson_le_iff (snapshot : Snapshot) {n : Nat} (hn : 3 ≤ n) :
    snapshot.toJson.nesting ≤ n ↔ ∀ tree ∈ snapshot.trees, tree.toJson.nesting + 2 ≤ n := by
  have hentries : Value.nestingItems (snapshot.entryPoints.map EntryPoint.toJson) ≤ 1 := by
    rw [Value.nestingItems_le_iff, List.forall_mem_map]
    exact fun entry _ => entry.nesting_toJson.le
  have hnodes : Value.nestingFields
      (snapshot.nodes.entries.map fun entry => (entry.1, entry.2.toJson)) ≤ 1 := by
    rw [Value.nestingFields_le_iff, List.forall_mem_map]
    exact fun entry _ => entry.2.nesting_toJson.le
  have htrees : Value.nestingItems (CallTree.toJsonList snapshot.trees) ≤ n - 2 ↔
      ∀ tree ∈ snapshot.trees, tree.toJson.nesting ≤ n - 2 := by
    rw [Value.nestingItems_le_iff, CallTree.toJsonList_eq_map, List.forall_mem_map]
  have hlevels : ∀ depth, depth + 2 ≤ n ↔ depth ≤ n - 2 := by omega
  simp only [hlevels, ← htrees, toJson, Value.list, Value.nesting, Value.nestingFields]
  omega

theorem nodup_keys (levels : Nat) : (layout levels).keys.Nodup := by
  simp [layout, Layout.keys, required, withDefault]

theorem decode_reads {snapshot : Snapshot} (hversion : snapshot.version < versionBound)
    (hdepth : snapshot.maxDepth < depthBound) :
    Decoder.Reads decode snapshot.toJson snapshot := by
  have hentries := list_reads fun entry (_ : entry ∈ snapshot.entryPoints) => entry.decode_reads
  have htrees := list_reads (CallTree.decode_reads_children snapshot.trees)
  rw [← CallTree.toJsonList_eq_map] at htrees
  have hnodes := dictionary_reads fun entry (_ : entry ∈ snapshot.nodes.entries) =>
    entry.2.decode_reads
  apply record_reads nodup_keys
  · intro levels
    exact .given (natBelow_reads hversion levels) <|
      .given (natBelow_reads hdepth levels) <|
      .given (hentries levels) <|
      .given (htrees levels) <|
      .given (hnodes levels) .nil
  · rfl

/-- A document that holds a written snapshot is refused as malformed exactly if the snapshot nests
too deep; otherwise it is taken as the snapshot, and checked. -/
theorem ofDocument_reading {snapshot : Snapshot} (hversion : snapshot.version < versionBound)
    (hdepth : snapshot.maxDepth < depthBound) :
    ofDocument ⟨snapshot.toJson.reading, false⟩ =
      if snapshot.toJson.nesting ≤ maxLevels then snapshot.validate.map fun _ => snapshot
      else .error .malformed := by
  have hdecode : Document.decode ⟨snapshot.toJson.reading, false⟩ decode =
      limited snapshot.toJson.nesting maxLevels snapshot := by
    rw [Document.decode, decode_reads hversion hdepth maxLevels]
    exact limited_bind _ 0 maxLevels snapshot (limited_zero ..).symm
  rw [ofDocument, hdecode, limited]
  by_cases hfits : snapshot.toJson.nesting ≤ maxLevels
  · rw [if_pos hfits, if_pos hfits]
    change (snapshot.validate >>= fun _ => pure snapshot) = _
    cases snapshot.validate <;> rfl
  · rw [if_neg hfits, if_neg hfits]

theorem ofText_toText {snapshot : Snapshot} (hversion : snapshot.version < versionBound)
    (hdepth : snapshot.maxDepth < depthBound) :
    ofText snapshot.toText =
      if snapshot.toJson.nesting ≤ maxLevels then snapshot.validate.map fun _ => snapshot
      else .error .malformed := by
  rw [ofText, toText, Value.ofString_pretty, ofDocument_reading hversion hdepth]

theorem ofBytes_toText (snapshot : Snapshot) :
    ofBytes snapshot.toText.toUTF8 = ofText snapshot.toText := by
  rw [ofBytes, ofText, toText, Value.ofBytes_pretty, Value.ofString_pretty]

end Snapshot

end CallTrace
