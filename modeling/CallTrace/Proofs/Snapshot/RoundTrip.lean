import CallTrace.Proofs.Json.Accepted
import CallTrace.Proofs.Snapshot.Text

/-!
Snapshots and their texts, both ways. The snapshots that are read from some text, however it is
written, are those that are read again from the text written for them.
-/

namespace CallTrace

open Json Json.Decode

theorem EntryPoint.pos_of_decode {levels : Nat} {r : Reading} {entry : EntryPoint}
    (h : decode levels r = .ok entry) : 0 < levels := by
  obtain ⟨below, row, rfl, -⟩ := record_accepts h
  exact Nat.succ_pos below

namespace CallTree

theorem nesting_le_of_decode {levels : Nat} {r : Reading} {tree : CallTree}
    (h : decode levels r = .ok tree) : tree.toJson.nesting ≤ levels := by
  induction levels using Nat.strong_induction_on generalizing r tree with
  | _ levels ih =>
      rw [decode_eq_record] at h
      obtain ⟨below, row, rfl, hrow, rfl⟩ := record_accepts h
      obtain ⟨signature, layer, circular, children, entryPoint, ⟨⟩⟩ := row
      obtain ⟨-, -, -, hchildren, hentry, -⟩ := hrow
      have hlist : (if children.isEmpty then 0
          else Value.nestingItems (toJsonList children) + 1) ≤ below := by
        rcases hchildren with habsent | ⟨r, hread⟩
        · cases habsent
          exact Nat.zero_le below
        · obtain ⟨inner, rfl, hitems⟩ := list_accepts hread
          have hnesting : Value.nestingItems (toJsonList children) ≤ inner := by
            rw [Value.nestingItems_le_iff, toJsonList_eq_map, List.forall_mem_map]
            intro child hchild
            obtain ⟨r, hread⟩ := hitems child hchild
            exact ih inner (by omega) hread
          split <;> omega
      have hpoint : (if entryPoint.isSome then 1 else 0) ≤ below := by
        cases entryPoint with
        | none => exact Nat.zero_le below
        | some entry =>
            rcases hentry with habsent | ⟨r, hread⟩
            · cases habsent
            · exact EntryPoint.pos_of_decode (optional_eq_some hread)
      rw [ofRow, nesting_toJson]
      omega

end CallTree

namespace Snapshot

/-- A snapshot that a text can hold: of the current version, with a depth of 64 bits and no blank
signature, and written with no more levels than are read. -/
structure Readable (snapshot : Snapshot) : Prop where
  version : snapshot.version = currentVersion
  maxDepth : snapshot.maxDepth < depthBound
  keys : ∀ key ∈ snapshot.nodes.keys, Text.isBlank key = false
  nesting : snapshot.toJson.nesting ≤ maxLevels

theorem validate_eq_ok_iff {snapshot : Snapshot} :
    snapshot.validate = .ok () ↔
      snapshot.version = currentVersion ∧
        ∀ key ∈ snapshot.nodes.keys, Text.isBlank key = false := by
  have hnone : (∀ key ∈ snapshot.nodes.keys, Text.isBlank key = false) ↔
      snapshot.nodes.keys.find? Text.isBlank = none := by
    simp
  rw [hnone, validate]
  by_cases hversion : snapshot.version = currentVersion
  · cases snapshot.nodes.keys.find? Text.isBlank <;> simp [hversion]
  · simp [hversion]

theorem Readable.ofText_toText {snapshot : Snapshot} (h : snapshot.Readable) :
    ofText snapshot.toText = .ok snapshot := by
  have hversion : snapshot.version < versionBound := by
    rw [h.version]
    decide
  rw [Snapshot.ofText_toText hversion h.maxDepth, if_pos h.nesting,
    validate_eq_ok_iff.mpr ⟨h.version, h.keys⟩]
  rfl

theorem readable_of_decode {r : Reading} {snapshot : Snapshot}
    (hread : decode maxLevels r = .ok snapshot) (hvalid : snapshot.validate = .ok ()) :
    snapshot.Readable := by
  obtain ⟨below, row, hlevels, hrow, rfl⟩ := record_accepts hread
  obtain ⟨version, maxDepth, entryPoints, trees, nodes, ⟨⟩⟩ := row
  obtain ⟨-, hdepth, -, htrees, -, -⟩ := hrow
  obtain ⟨hversion, hkeys⟩ := validate_eq_ok_iff.mp hvalid
  refine ⟨hversion, ?_, hkeys, ?_⟩
  · rcases hdepth with habsent | ⟨r, hread⟩
    · cases habsent
    · exact lt_of_natBelow hread
  · rw [nesting_toJson_le_iff _ (by decide)]
    intro tree htree
    rcases htrees with habsent | ⟨r, hread⟩
    · cases habsent
    · obtain ⟨inner, rfl, hitems⟩ := list_accepts hread
      obtain ⟨r, hread⟩ := hitems tree htree
      have := CallTree.nesting_le_of_decode hread
      omega

theorem readable_of_ofText {text : String} {snapshot : Snapshot}
    (h : ofText text = .ok snapshot) : snapshot.Readable := by
  unfold ofText ofDocument at h
  split at h
  · cases h
  · rename_i decoded hdecode
    obtain ⟨⟨⟩, hvalid, h⟩ := bind_eq_ok.mp h
    cases h
    obtain ⟨decoded, hread, hmore⟩ := bind_eq_ok.mp hdecode
    split at hmore
    · cases hmore
    · cases hmore
      exact readable_of_decode hread hvalid

/-- The text of every readable snapshot is read back to it. Every text that is read, also with keys
that no field has, records as arrays, fields left out or keys repeated, is read as a readable
snapshot, so that it can be replaced by the text of that. -/
theorem text_round_trip :
    (∀ snapshot : Snapshot, snapshot.Readable → ofText snapshot.toText = .ok snapshot) ∧
      ∀ text snapshot, ofText text = .ok snapshot →
        snapshot.Readable ∧ ofText snapshot.toText = .ok snapshot := by
  refine ⟨fun _ h => h.ofText_toText, fun text snapshot h => ?_⟩
  have hreadable := readable_of_ofText h
  exact ⟨hreadable, hreadable.ofText_toText⟩

def looseText : String :=
  "\x7b\"note\":0,\"version\":1,\"max_depth\":9,\"trees\":[[\"A\\n\",\"\",false,[[\"B\"]]]]," ++
    "\"entry_points\":[],\"nodes\":\x7b\"A\":[\"A\",\"a\"],\"A\":[\"B\",\"b\"]\x7d\x7d"

def loose : Snapshot where
  version := 1
  maxDepth := 9
  entryPoints := []
  trees := [⟨"A\n", ⟨""⟩, false, [⟨"B", .unknown, false, [], none⟩], none⟩]
  nodes := .insert .empty "A" ⟨"B", "b", .unknown⟩

theorem text_round_trip_loose :
    loose.Readable ∧ ofText looseText = .ok loose ∧ ofText loose.toText = .ok loose := by
  have hloose : loose.Readable := ⟨rfl, by decide, by decide, by decide⟩
  have hread : ofText looseText = .ok loose := by decide +kernel
  have hback : ofText loose.toText = .ok loose := text_round_trip.1 loose hloose
  exact ⟨(text_round_trip.2 looseText loose hread).1, hread, hback⟩

end Snapshot

end CallTrace
