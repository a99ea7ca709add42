import CallTrace.Json.Reading
import CallTrace.Proofs.Json.Scan

namespace CallTrace.Json

namespace Value

mutual

def reading : Value → Reading
  | .null => .null
  | .bool b => .bool b
  | .num n => .num (Nat.toDigits 10 n)
  | .str s => .str (some s)
  | .arr items => .arr (readingItems items) true
  | .obj fields => .obj (readingFields fields) true

def readingItems : List Value → List Reading
  | [] => []
  | item :: rest => reading item :: readingItems rest

def readingFields : List (String × Value) → List (Option String × Reading)
  | [] => []
  | (key, item) :: rest => (some key, reading item) :: readingFields rest

end

end Value

namespace Progress

def Awaits (frames : List Frame) : Prop :=
  ∀ frame ∈ frames.head?, frame.awaitsValue = true

theorem enter_eq {frames : List Frame} (h : Awaits frames) (container : Frame) :
    enter container frames = .within (container :: frames) := by
  cases frames with
  | nil => rfl
  | cons frame rest => exact if_pos (h frame rfl)

theorem step_str {frames : List Frame} (h : Awaits frames) (content : Option String) :
    step (.within frames) (.str content) = give (.str content) frames := by
  cases frames with
  | nil => rfl
  | cons frame rest =>
      have hframe := h frame rfl
      cases frame with
      | arr items phase => rfl
      | obj fields phase =>
          cases phase with
          | firstKey => cases hframe
          | key => cases hframe
          | colon key => rfl
          | value key => rfl
          | divider => rfl

theorem give_first (item : Reading) (frames : List Frame) :
    give item (.arr [] .first :: frames) = .within (.arr [item] .divider :: frames) := rfl

theorem give_item (item : Reading) (items : List Reading) (frames : List Frame) :
    give item (.arr items .item :: frames) = .within (.arr (item :: items) .divider :: frames) :=
  rfl

theorem give_value (item : Reading) (key : Option String)
    (fields : List (Option String × Reading)) (frames : List Frame) :
    give item (.obj fields (.value key) :: frames) =
      .within (.obj ((key, item) :: fields) .divider :: frames) := rfl

end Progress

namespace Value

open Progress

mutual

theorem foldl_tokens (v : Value) {frames : List Frame} (hframes : Awaits frames) :
    v.tokens.foldl step (.within frames) = give v.reading frames := by
  cases v with
  | null => rfl
  | bool b => rfl
  | num n => rfl
  | str s => exact step_str hframes (some s)
  | arr items =>
      have hopen : step (.within frames) .openBracket = .within (.arr [] .first :: frames) :=
        enter_eq hframes _
      cases items with
      | nil => exact congrArg (step · .closeBracket) hopen
      | cons item rest =>
          have hfirst : Awaits (.arr [] .first :: frames) := by simp [Awaits, Frame.awaitsValue]
          have hitem := foldl_tokens item hfirst
          have hrest := foldl_tokensItems rest [item.reading] frames
          rw [tokens, List.cons_append, List.cons_append, List.foldl_cons, hopen,
            List.foldl_append, List.foldl_append, hitem, give_first, hrest]
          simp [step, reading, readingItems]
  | obj fields =>
      have hopen : step (.within frames) .openBrace = .within (.obj [] .firstKey :: frames) :=
        enter_eq hframes _
      cases fields with
      | nil => exact congrArg (step · .closeBrace) hopen
      | cons field rest =>
          obtain ⟨key, item⟩ := field
          have hkey : [.openBrace, .str (some key), .colon].foldl step (.within frames) =
              .within (.obj [] (.value (some key)) :: frames) := by
            rw [List.foldl_cons, hopen]
            rfl
          have hvalue : Awaits (.obj [] (.value (some key)) :: frames) := by
            simp [Awaits, Frame.awaitsValue]
          have hitem := foldl_tokens item hvalue
          have hrest := foldl_tokensFields rest [(some key, item.reading)] frames
          rw [tokens, List.foldl_append, List.foldl_append, List.foldl_append, hkey, hitem,
            give_value, hrest]
          simp [step, reading, readingFields]

theorem foldl_tokensItems (items : List Value) (done : List Reading) (frames : List Frame) :
    (tokensItems items).foldl step (.within (.arr done .divider :: frames)) =
      .within (.arr ((readingItems items).reverse ++ done) .divider :: frames) := by
  cases items with
  | nil => rfl
  | cons item rest =>
      have hcomma : step (.within (.arr done .divider :: frames)) .comma =
          .within (.arr done .item :: frames) := rfl
      have hnext : Awaits (.arr done .item :: frames) := by simp [Awaits, Frame.awaitsValue]
      have hitem := foldl_tokens item hnext
      have hrest := foldl_tokensItems rest (item.reading :: done) frames
      rw [tokensItems, List.cons_append, List.foldl_cons, hcomma, List.foldl_append, hitem,
        give_item, hrest]
      simp [readingItems]

theorem foldl_tokensFields (fields : List (String × Value))
    (done : List (Option String × Reading)) (frames : List Frame) :
    (tokensFields fields).foldl step (.within (.obj done .divider :: frames)) =
      .within (.obj ((readingFields fields).reverse ++ done) .divider :: frames) := by
  cases fields with
  | nil => rfl
  | cons field rest =>
      obtain ⟨key, item⟩ := field
      have hkey :
          [.comma, .str (some key), .colon].foldl step (.within (.obj done .divider :: frames)) =
            .within (.obj done (.value (some key)) :: frames) := rfl
      have hvalue : Awaits (.obj done (.value (some key)) :: frames) := by
        simp [Awaits, Frame.awaitsValue]
      have hitem := foldl_tokens item hvalue
      have hrest := foldl_tokensFields rest ((some key, item.reading) :: done) frames
      rw [tokensFields, List.foldl_append, List.foldl_append, hkey, hitem, give_value, hrest]
      simp [readingFields]

end

theorem ofTokens_tokens (v : Value) : Document.ofTokens v.tokens = ⟨v.reading, false⟩ := by
  have hread : v.tokens.foldl step .start = .complete v.reading false :=
    foldl_tokens v (by simp [Awaits])
  rw [Document.ofTokens, hread]

theorem ofString_pretty (v : Value) : Document.ofString v.pretty = ⟨v.reading, false⟩ := by
  rw [Document.ofString, scan_pretty, ofTokens_tokens]

theorem ofBytes_pretty (v : Value) : Document.ofBytes v.pretty.toUTF8 = ⟨v.reading, false⟩ := by
  rw [Document.ofBytes, Glyph.ofBytes_toUTF8, scan_pretty, ofTokens_tokens]

end Value

end CallTrace.Json
