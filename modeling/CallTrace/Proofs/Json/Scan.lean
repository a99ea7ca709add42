import CallTrace.Json.Token
import CallTrace.Json.Value
import Mathlib.Tactic.IntervalCases

/-!
The scan of a written value finds the tokens of the value, whatever the layout: what a style puts
between two tokens is passed over, and what is written of a string is read back.
-/

namespace CallTrace.Json

namespace Glyph

theorem utf8DecodeChar?_append (before : ByteArray) (c : Char) (cs : List Char) :
    (before ++ (c :: cs).utf8Encode).utf8DecodeChar? before.size = some c := by
  have hrest : (before ++ (c :: cs).utf8Encode).extract before.size
      (before ++ (c :: cs).utf8Encode).size = (c :: cs).utf8Encode :=
    ByteArray.extract_append_eq_right rfl ByteArray.size_append
  rw [ByteArray.utf8DecodeChar?_eq_utf8DecodeChar?_extract, hrest,
    List.utf8DecodeChar?_utf8Encode_cons]

theorem ofBytesFrom_append (cs : List Char) (before : ByteArray) (seen : List Glyph) :
    ofBytesFrom (before ++ cs.utf8Encode) before.size seen = seen.reverse ++ cs.map .char := by
  induction cs generalizing before seen with
  | nil =>
      rw [ofBytesFrom]
      simp
  | cons c cs ih =>
      have hsize : (before ++ [c].utf8Encode).size = before.size + c.utf8Size := by
        rw [ByteArray.size_append, List.utf8Encode_singleton, List.size_toByteArray,
          String.length_utf8EncodeChar]
      have hbytes : before ++ [c].utf8Encode ++ cs.utf8Encode = before ++ (c :: cs).utf8Encode := by
        rw [ByteArray.append_assoc, ← List.utf8Encode_cons]
      have hmore : before.size < (before ++ (c :: cs).utf8Encode).size := by
        rw [← hbytes, ByteArray.size_append, hsize]
        have := c.utf8Size_pos
        omega
      have hrest := ih (before ++ [c].utf8Encode) (.char c :: seen)
      rw [hbytes, hsize] at hrest
      rw [ofBytesFrom, dif_pos hmore, utf8DecodeChar?_append]
      simpa using hrest

theorem ofBytes_toUTF8 (text : String) : ofBytes text.toUTF8 = ofString text := by
  have hbytes := ofBytesFrom_append text.toList .empty []
  rw [ByteArray.empty_append, String.utf8Encode_toList] at hbytes
  exact hbytes

end Glyph

namespace Value

mutual

def tokens : Value → List Token
  | .null => [.null]
  | .bool b => [.bool b]
  | .num n => [.num (Nat.toDigits 10 n)]
  | .str s => [.str (some s)]
  | .arr [] => [.openBracket, .closeBracket]
  | .arr (item :: rest) => .openBracket :: tokens item ++ tokensItems rest ++ [.closeBracket]
  | .obj [] => [.openBrace, .closeBrace]
  | .obj ((key, item) :: rest) =>
      [.openBrace, .str (some key), .colon] ++ tokens item ++ tokensFields rest ++ [.closeBrace]

def tokensItems : List Value → List Token
  | [] => []
  | item :: rest => .comma :: tokens item ++ tokensItems rest

def tokensFields : List (String × Value) → List Token
  | [] => []
  | (key, item) :: rest =>
      [.comma, .str (some key), .colon] ++ tokens item ++ tokensFields rest

end

end Value

def blanks : List Char := [' ', '\t', '\n', '\r']

def marks : List (Char × Token) :=
  [('\x7b', .openBrace), ('\x7d', .closeBrace), ('[', .openBracket), (']', .closeBracket),
   (':', .colon), (',', .comma)]

structure Value.Style.Blank (style : Style) : Prop where
  line : ∀ level, ∀ c ∈ style.line level, c ∈ blanks
  colon : ∃ cs, style.colon = ':' :: cs ∧ ∀ c ∈ cs, c ∈ blanks

theorem Value.Style.blank_pretty : Value.Style.pretty.Blank where
  line level c hc := by
    rcases List.mem_cons.mp hc with rfl | hc
    · decide
    · rw [List.eq_of_mem_replicate hc]
      decide
  colon := ⟨[' '], rfl, by simp [blanks]⟩

namespace Scan

def feed (scan : Scan) (cs : List Char) : Scan :=
  cs.foldl stepChar scan

@[simp] theorem feed_nil (scan : Scan) : scan.feed [] = scan := rfl

@[simp] theorem feed_cons (scan : Scan) (c : Char) (cs : List Char) :
    scan.feed (c :: cs) = (scan.stepChar c).feed cs := rfl

@[simp] theorem feed_append (scan : Scan) (cs ds : List Char) :
    scan.feed (cs ++ ds) = (scan.feed cs).feed ds :=
  List.foldl_append

theorem begin_blank (scan : Scan) {c : Char} (hc : c ∈ blanks) :
    scan.begin c = ⟨.between, scan.tokens⟩ := by
  simp only [blanks, List.mem_cons, List.not_mem_nil, or_false] at hc
  rcases hc with rfl | rfl | rfl | rfl <;> rfl

theorem begin_mark (scan : Scan) {c : Char} {token : Token} (hc : (c, token) ∈ marks) :
    scan.begin c = ⟨.between, token :: scan.tokens⟩ := by
  simp only [marks, List.mem_cons, List.not_mem_nil, or_false, Prod.mk.injEq] at hc
  rcases hc with ⟨rfl, rfl⟩ | ⟨rfl, rfl⟩ | ⟨rfl, rfl⟩ | ⟨rfl, rfl⟩ | ⟨rfl, rfl⟩ | ⟨rfl, rfl⟩ <;>
    rfl

theorem feed_blanks (tokens : List Token) {cs : List Char} (hcs : ∀ c ∈ cs, c ∈ blanks) :
    feed ⟨.between, tokens⟩ cs = ⟨.between, tokens⟩ := by
  induction cs with
  | nil => rfl
  | cons c cs ih =>
      rw [feed_cons, stepChar, begin_blank _ (hcs c List.mem_cons_self)]
      exact ih fun d hd => hcs d (List.mem_cons_of_mem c hd)

/-- The tokens found so far, last first. The last of them may be a number that the next character
is to end. -/
inductive Found : Scan → List Token → Prop where
  | between (tokens : List Token) : Found ⟨.between, tokens⟩ tokens
  | zero (seen : List Char) (tokens : List Token) :
      Found ⟨.number .zero seen, tokens⟩ (.num seen.reverse :: tokens)
  | whole (seen : List Char) (tokens : List Token) :
      Found ⟨.number .whole seen, tokens⟩ (.num seen.reverse :: tokens)

namespace Found

variable {scan : Scan} {tokens : List Token}

theorem finish_eq (h : scan.Found tokens) : scan.finish = tokens.reverse := by
  cases h <;> rfl

/-- A character that no number goes on with is taken as if nothing were under way. -/
theorem stepChar_eq (h : scan.Found tokens) {c : Char} (hdigit : c.isDigit = false)
    (hrest : c ∉ ['.', 'e', 'E']) : scan.stepChar c = begin ⟨.between, tokens⟩ c := by
  simp only [List.mem_cons, List.not_mem_nil, or_false, not_or] at hrest
  obtain ⟨hpoint, hmark, hMark⟩ := hrest
  cases h with
  | between => rfl
  | zero seen tokens => simp [stepChar, NumberPart.next, hdigit, hpoint, hmark, hMark, emit]
  | whole seen tokens => simp [stepChar, NumberPart.next, hdigit, hpoint, hmark, hMark, emit]

theorem stepChar_blank (h : scan.Found tokens) {c : Char} (hc : c ∈ blanks) :
    scan.stepChar c = ⟨.between, tokens⟩ := by
  have hends : c.isDigit = false ∧ c ∉ ['.', 'e', 'E'] := by
    simp only [blanks, List.mem_cons, List.not_mem_nil, or_false] at hc
    rcases hc with rfl | rfl | rfl | rfl <;> decide
  rw [h.stepChar_eq hends.1 hends.2, begin_blank _ hc]

theorem stepChar_mark (h : scan.Found tokens) {c : Char} {token : Token}
    (hc : (c, token) ∈ marks) : scan.stepChar c = ⟨.between, token :: tokens⟩ := by
  have hends : ∀ mark ∈ marks, mark.1.isDigit = false ∧ mark.1 ∉ ['.', 'e', 'E'] := by decide
  obtain ⟨hdigit, hrest⟩ := hends (c, token) hc
  rw [h.stepChar_eq hdigit hrest, begin_mark _ hc]

theorem feed_blanks (h : scan.Found tokens) {cs : List Char} (hcs : ∀ c ∈ cs, c ∈ blanks) :
    (scan.feed cs).Found tokens := by
  cases cs with
  | nil => exact h
  | cons c cs =>
      rw [feed_cons, h.stepChar_blank (hcs c List.mem_cons_self),
        Scan.feed_blanks tokens fun d hd => hcs d (List.mem_cons_of_mem c hd)]
      exact .between tokens

end Found

theorem hexValue?_hexDigit {n : Nat} (hn : n < 16) : hexValue? (Value.hexDigit n) = some n := by
  interval_cases n <;> rfl

theorem stepChar_hexDigit (content : Content) (left code : Nat) (tokens : List Token) {n : Nat}
    (hn : n < 16) :
    stepChar ⟨.hex content left code, tokens⟩ (Value.hexDigit n) =
      if left ≤ 1 then ⟨.text (content.pushCode (code * 16 + n)), tokens⟩
      else ⟨.hex content (left - 1) (code * 16 + n), tokens⟩ := by
  simp only [stepChar, hexValue?_hexDigit hn, goto]

/-- A control character written by its code. -/
theorem feed_control (chars : List Char) (tokens : List Token) {c : Char} (hc : c.toNat < 0x20) :
    feed ⟨.text ⟨some chars, none⟩, tokens⟩
        ['\\', 'u', '0', '0', Value.hexDigit (c.toNat / 16), Value.hexDigit (c.toNat % 16)] =
      ⟨.text ⟨some (c :: chars), none⟩, tokens⟩ := by
  have hcode : (0 * 16 + c.toNat / 16) * 16 + c.toNat % 16 = c.toNat := by omega
  have hescape : feed ⟨.text ⟨some chars, none⟩, tokens⟩ ['\\', 'u', '0', '0'] =
      ⟨.hex ⟨some chars, none⟩ 2 0, tokens⟩ := rfl
  have hpush : Content.pushCode ⟨some chars, none⟩ c.toNat = ⟨some (c :: chars), none⟩ := by
    simp [Content.pushCode, Content.push, show ¬ 0xD800 ≤ c.toNat by omega,
      show ¬ 0xDC00 ≤ c.toNat by omega]
  calc
    _ = feed ⟨.hex ⟨some chars, none⟩ 2 0, tokens⟩
          [Value.hexDigit (c.toNat / 16), Value.hexDigit (c.toNat % 16)] := by
      rw [← hescape, ← feed_append]
      rfl
    _ = ⟨.text ⟨some (c :: chars), none⟩, tokens⟩ := by
      rw [feed_cons, stepChar_hexDigit _ _ _ _ (by omega), if_neg (by decide), feed_cons,
        stepChar_hexDigit _ _ _ _ (by omega), if_pos (by decide), hcode, hpush, feed_nil]

theorem feed_escapeChar (chars : List Char) (tokens : List Token) (c : Char) :
    feed ⟨.text ⟨some chars, none⟩, tokens⟩ (Value.escapeChar c) =
      ⟨.text ⟨some (c :: chars), none⟩, tokens⟩ := by
  unfold Value.escapeChar
  split
  case h_8 _ hquote hslash _ _ _ _ _ =>
    split
    · rename_i hcontrol
      exact feed_control chars tokens hcontrol
    · rename_i hplain
      have hquote : c ≠ '"' := hquote
      have hslash : c ≠ '\\' := hslash
      simp [stepChar, goto, hquote, hslash, hplain, Content.push]
  all_goals rfl

theorem feed_escaped (cs chars : List Char) (tokens : List Token) :
    feed ⟨.text ⟨some chars, none⟩, tokens⟩ (cs.flatMap Value.escapeChar) =
      ⟨.text ⟨some (cs.reverse ++ chars), none⟩, tokens⟩ := by
  induction cs generalizing chars with
  | nil => rfl
  | cons c cs ih =>
      rw [List.flatMap_cons, feed_append, feed_escapeChar, ih]
      simp

theorem feed_quoted (tokens : List Token) (s : String) :
    feed ⟨.between, tokens⟩ (Value.quoted s) = ⟨.between, .str (some s) :: tokens⟩ := by
  have hopen : stepChar ⟨.between, tokens⟩ '"' = ⟨.text ⟨some [], none⟩, tokens⟩ := rfl
  rw [Value.quoted, List.cons_append, feed_cons, hopen, feed_append, feed_escaped]
  simp [stepChar, emit, Content.string?]

theorem begin_digitChar (tokens : List Token) {n : Nat} (hn : n < 10) :
    begin ⟨.between, tokens⟩ n.digitChar =
      ⟨.number (if n = 0 then .zero else .whole) [n.digitChar], tokens⟩ := by
  interval_cases n <;> rfl

theorem isDigit_digitChar {n : Nat} (hn : n < 10) : n.digitChar.isDigit = true := by
  interval_cases n <;> rfl

theorem feed_toDigits (tokens : List Token) (n : Nat) :
    feed ⟨.between, tokens⟩ (Nat.toDigits 10 n) =
      ⟨.number (if n = 0 then .zero else .whole) (Nat.toDigits 10 n).reverse, tokens⟩ := by
  induction n using Nat.strongRecOn with
  | ind n ih =>
      by_cases hn : n < 10
      · rw [Nat.toDigits_of_lt_base hn]
        exact begin_digitChar tokens hn
      · -- all digits but the last make a number that is not zero
        have hdigit : (n % 10).digitChar.isDigit = true := isDigit_digitChar (by omega)
        rw [Nat.toDigits_of_base_le (by decide) (by omega), feed_append, ih (n / 10) (by omega),
          if_neg (by omega), if_neg (by omega)]
        simp [stepChar, NumberPart.next, hdigit, goto]

theorem found_toDigits (tokens : List Token) (n : Nat) :
    (feed ⟨.between, tokens⟩ (Nat.toDigits 10 n)).Found (.num (Nat.toDigits 10 n) :: tokens) := by
  rw [feed_toDigits]
  by_cases hn : n = 0
  · rw [if_pos hn]
    simpa using Found.zero (Nat.toDigits 10 n).reverse tokens
  · rw [if_neg hn]
    simpa using Found.whole (Nat.toDigits 10 n).reverse tokens

end Scan

namespace Value

open Scan

theorem feed_field {style : Style} (hstyle : style.Blank) (found : List Token) (key : String) :
    feed ⟨.between, found⟩ (quoted key ++ style.colon) =
      ⟨.between, .colon :: .str (some key) :: found⟩ := by
  obtain ⟨cs, hcolon, hcs⟩ := hstyle.colon
  rw [feed_append, feed_quoted, hcolon, feed_cons]
  exact feed_blanks _ hcs

theorem found_close {style : Style} (hstyle : style.Blank) (level : Nat) {scan : Scan}
    {found : List Token} (hscan : scan.Found found) {c : Char} {token : Token}
    (hc : (c, token) ∈ marks) : (scan.feed (style.line level ++ [c])).Found (token :: found) := by
  have hline := hscan.feed_blanks (hstyle.line level)
  rw [feed_append, feed_cons, feed_nil, hline.stepChar_mark hc]
  exact .between _

theorem feed_open {style : Style} (hstyle : style.Blank) (level : Nat) {scan : Scan}
    {found : List Token} (hscan : scan.Found found) {c : Char} {token : Token}
    (hc : (c, token) ∈ marks) :
    scan.feed (c :: style.line level) = ⟨.between, token :: found⟩ := by
  rw [feed_cons, hscan.stepChar_mark hc]
  exact feed_blanks _ (hstyle.line level)

mutual

theorem found_write {style : Style} (hstyle : style.Blank) (level : Nat) (found : List Token)
    (v : Value) :
    (feed ⟨.between, found⟩ (v.write style level)).Found (v.tokens.reverse ++ found) := by
  cases v with
  | null => exact .between _
  | bool b => cases b <;> exact .between _
  | num n => exact found_toDigits found n
  | str s =>
      rw [write, feed_quoted]
      exact .between _
  | arr items =>
      cases items with
      | nil => exact .between _
      | cons item rest =>
          have hopen := feed_open hstyle (level + 1) (.between found)
            (show ('[', .openBracket) ∈ marks by decide)
          -- a number at the end stays open until the bracket, which closes it too
          have hitem := found_write hstyle (level + 1) (.openBracket :: found) item
          have hrest := found_writeItems hstyle (level + 1) hitem rest
          have hclose := found_close hstyle level hrest
            (show (']', .closeBracket) ∈ marks by decide)
          simpa [write, tokens, ← hopen] using hclose
  | obj fields =>
      cases fields with
      | nil => exact .between _
      | cons field rest =>
          obtain ⟨key, item⟩ := field
          have hopen := feed_open hstyle (level + 1) (.between found)
            (show ('\x7b', .openBrace) ∈ marks by decide)
          have hkey := feed_field hstyle (.openBrace :: found) key
          have hitem := found_write hstyle (level + 1)
            (.colon :: .str (some key) :: .openBrace :: found) item
          have hrest := found_writeFields hstyle (level + 1) hitem rest
          have hclose := found_close hstyle level hrest
            (show ('\x7d', .closeBrace) ∈ marks by decide)
          simpa [write, tokens, ← hkey, ← hopen] using hclose

theorem found_writeItems {style : Style} (hstyle : style.Blank) (level : Nat) {scan : Scan}
    {found : List Token} (hscan : scan.Found found) (items : List Value) :
    (scan.feed (writeItems style level items)).Found ((tokensItems items).reverse ++ found) := by
  cases items with
  | nil => exact hscan
  | cons item rest =>
      have hcomma := feed_open hstyle level hscan (show (',', .comma) ∈ marks by decide)
      have hitem := found_write hstyle level (.comma :: found) item
      have hrest := found_writeItems hstyle level hitem rest
      simpa [writeItems, tokensItems, ← hcomma] using hrest

theorem found_writeFields {style : Style} (hstyle : style.Blank) (level : Nat) {scan : Scan}
    {found : List Token} (hscan : scan.Found found) (fields : List (String × Value)) :
    (scan.feed (writeFields style level fields)).Found
      ((tokensFields fields).reverse ++ found) := by
  cases fields with
  | nil => exact hscan
  | cons field rest =>
      obtain ⟨key, item⟩ := field
      have hcomma := feed_open hstyle level hscan (show (',', .comma) ∈ marks by decide)
      have hkey := feed_field hstyle (.comma :: found) key
      have hitem := found_write hstyle level (.colon :: .str (some key) :: .comma :: found) item
      have hrest := found_writeFields hstyle level hitem rest
      simpa [writeFields, tokensFields, ← hkey, ← hcomma] using hrest

end

theorem scan_pretty (v : Value) : Token.scan (Glyph.ofString v.pretty) = v.tokens := by
  have hfound : (feed .start (v.write .pretty 0)).Found (v.tokens.reverse ++ []) :=
    found_write Style.blank_pretty 0 [] v
  have hfeed : (Glyph.ofString v.pretty).foldl Scan.step .start =
      feed .start (v.write .pretty 0) := by
    rw [Glyph.ofString, List.foldl_map, pretty, String.toList_ofList]
    rfl
  rw [Token.scan, hfeed, hfound.finish_eq, List.append_nil, List.reverse_reverse]

end Value

end CallTrace.Json
