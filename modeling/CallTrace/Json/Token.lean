import CallTrace.Json.Glyph

/-! Tokens of a JSON text, scanned by a machine that takes one glyph at a time. -/

namespace CallTrace.Json

inductive Token where
  | openBrace
  | closeBrace
  | openBracket
  | closeBracket
  | colon
  | comma
  | null
  | bool (b : Bool)
  /-- A number as it is written. -/
  | num (lexeme : List Char)
  /-- A string, or nothing if it has escapes or bytes that stand for no character. -/
  | str (content : Option String)
  /-- Text that starts no token; the scan ends here. -/
  | bad
  deriving DecidableEq, Repr

inductive NumberPart where
  | sign
  | zero
  | whole
  | point
  | fraction
  | mark
  | markSign
  | exponent
  deriving DecidableEq, Repr

namespace NumberPart

/-- A number may end after this part. -/
def isComplete : NumberPart → Bool
  | .zero | .whole | .fraction | .exponent => true
  | .sign | .point | .mark | .markSign => false

/-- What a character does to a number that has come this far. -/
inductive Next where
  | more (part : NumberPart)
  | ends
  | fails

def next (part : NumberPart) (c : Char) : Next :=
  match part with
  | .sign => if c == '0' then .more .zero else if c.isDigit then .more .whole else .fails
  | .zero =>
      if c == '.' then .more .point
      else if c == 'e' || c == 'E' then .more .mark
      else if c.isDigit then .fails
      else .ends
  | .whole =>
      if c.isDigit then .more .whole
      else if c == '.' then .more .point
      else if c == 'e' || c == 'E' then .more .mark
      else .ends
  | .point => if c.isDigit then .more .fraction else .fails
  | .fraction =>
      if c.isDigit then .more .fraction
      else if c == 'e' || c == 'E' then .more .mark
      else .ends
  | .mark =>
      if c.isDigit then .more .exponent
      else if c == '+' || c == '-' then .more .markSign
      else .fails
  | .markSign => if c.isDigit then .more .exponent else .fails
  | .exponent => if c.isDigit then .more .exponent else .ends

end NumberPart

/-- The content of a string so far, last character first. -/
structure Content where
  /-- Nothing once an escape or a byte stands for no character. -/
  chars : Option (List Char)
  /-- A leading surrogate whose trailing one has not come yet. -/
  high : Option Nat
  deriving DecidableEq, Repr

namespace Content

def empty : Content := ⟨some [], none⟩

def undecodable : Content := ⟨none, none⟩

def push (content : Content) (c : Char) : Content :=
  match content.high with
  | some _ => undecodable
  | none => ⟨content.chars.map (c :: ·), none⟩

/-- Takes a code written in hexadecimal: surrogates count only as a pair. -/
def pushCode (content : Content) (code : Nat) : Content :=
  match content.high with
  | some high =>
      if 0xDC00 ≤ code && code ≤ 0xDFFF then
        ⟨content.chars.map
          (Char.ofNat (0x10000 + (high - 0xD800) * 0x400 + (code - 0xDC00)) :: ·), none⟩
      else undecodable
  | none =>
      if 0xD800 ≤ code && code ≤ 0xDBFF then ⟨content.chars, some code⟩
      else if 0xDC00 ≤ code && code ≤ 0xDFFF then undecodable
      else content.push (Char.ofNat code)

def string? (content : Content) : Option String :=
  match content.high with
  | some _ => none
  | none => content.chars.map fun chars => String.ofList chars.reverse

end Content

def unescape? : Char → Option Char
  | '"' => some '"'
  | '\\' => some '\\'
  | '/' => some '/'
  | 'b' => some '\x08'
  | 'f' => some '\x0c'
  | 'n' => some '\n'
  | 'r' => some '\r'
  | 't' => some '\t'
  | _ => none

def hexValue? (c : Char) : Option Nat :=
  if '0' ≤ c && c ≤ '9' then some (c.toNat - 0x30)
  else if 'a' ≤ c && c ≤ 'f' then some (c.toNat - 0x57)
  else if 'A' ≤ c && c ≤ 'F' then some (c.toNat - 0x37)
  else none

/-- Where the scan stands between two glyphs. -/
inductive Mode where
  | between
  /-- Inside a literal name: what is still to come, and the token it makes. -/
  | word (left : List Char) (token : Token)
  /-- Inside a number: what was read, last character first. -/
  | number (part : NumberPart) (seen : List Char)
  | text (content : Content)
  | escape (content : Content)
  | hex (content : Content) (left : Nat) (code : Nat)
  | stopped
  deriving DecidableEq, Repr

/-- A scan under way: its mode, and the tokens found, last first. -/
structure Scan where
  mode : Mode
  tokens : List Token
  deriving DecidableEq, Repr

namespace Scan

def start : Scan := ⟨.between, []⟩

def emit (scan : Scan) (token : Token) : Scan :=
  ⟨.between, token :: scan.tokens⟩

def fail (scan : Scan) : Scan :=
  ⟨.stopped, .bad :: scan.tokens⟩

def goto (scan : Scan) (mode : Mode) : Scan :=
  ⟨mode, scan.tokens⟩

/-- Takes the first character of a token, or a blank before one. -/
def begin (scan : Scan) (c : Char) : Scan :=
  match c with
  | ' ' | '\t' | '\n' | '\r' => scan.goto .between
  | '{' => scan.emit .openBrace
  | '}' => scan.emit .closeBrace
  | '[' => scan.emit .openBracket
  | ']' => scan.emit .closeBracket
  | ':' => scan.emit .colon
  | ',' => scan.emit .comma
  | '"' => scan.goto (.text .empty)
  | '-' => scan.goto (.number .sign ['-'])
  | '0' => scan.goto (.number .zero ['0'])
  | 'n' => scan.goto (.word ['u', 'l', 'l'] .null)
  | 't' => scan.goto (.word ['r', 'u', 'e'] (.bool true))
  | 'f' => scan.goto (.word ['a', 'l', 's', 'e'] (.bool false))
  | c => if c.isDigit then scan.goto (.number .whole [c]) else scan.fail

def stepChar (scan : Scan) (c : Char) : Scan :=
  match scan.mode with
  | .between => scan.begin c
  | .word left token =>
      match left with
      | [] => scan.fail
      | [last] => if c == last then scan.emit token else scan.fail
      | next :: left => if c == next then scan.goto (.word left token) else scan.fail
  | .number part seen =>
      match part.next c with
      | .more part => scan.goto (.number part (c :: seen))
      | .ends => (scan.emit (.num seen.reverse)).begin c
      | .fails => scan.fail
  | .text content =>
      if c == '"' then scan.emit (.str content.string?)
      else if c == '\\' then scan.goto (.escape content)
      else if c.toNat < 0x20 then scan.fail
      else scan.goto (.text (content.push c))
  | .escape content =>
      if c == 'u' then scan.goto (.hex content 4 0)
      else
        match unescape? c with
        | some c => scan.goto (.text (content.push c))
        | none => scan.fail
  | .hex content left code =>
      match hexValue? c with
      | none => scan.fail
      | some digit =>
          if left ≤ 1 then scan.goto (.text (content.pushCode (code * 16 + digit)))
          else scan.goto (.hex content (left - 1) (code * 16 + digit))
  | .stopped => scan

def step (scan : Scan) : Glyph → Scan
  | .char c => scan.stepChar c
  | .stray _ =>
      match scan.mode with
      | .text _ => scan.goto (.text .undecodable)
      | .stopped => scan
      | _ => scan.fail

def finish (scan : Scan) : List Token :=
  match scan.mode with
  | .between | .stopped => scan.tokens.reverse
  | .number part seen =>
      if part.isComplete then (scan.emit (.num seen.reverse)).tokens.reverse
      else scan.fail.tokens.reverse
  | _ => scan.fail.tokens.reverse

end Scan

def Token.scan (glyphs : List Glyph) : List Token :=
  (glyphs.foldl Scan.step .start).finish

end CallTrace.Json
