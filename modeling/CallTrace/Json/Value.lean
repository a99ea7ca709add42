import CallTrace.Sort

namespace CallTrace.Json

/-- A JSON value; the fields of an object keep the order they are given in. -/
inductive Value where
  | null
  | bool (b : Bool)
  | num (n : Nat)
  | str (s : String)
  | arr (items : List Value)
  | obj (fields : List (String × Value))
  deriving Inhabited, Repr

namespace Value

def list (f : α → Value) (items : List α) : Value :=
  .arr (items.map f)

def strings (items : List String) : Value :=
  list .str items

def optional (f : α → Value) : Option α → Value
  | none => .null
  | some a => f a

def hexDigit (n : Nat) : Char :=
  if n < 10 then Char.ofNat (0x30 + n) else Char.ofNat (0x57 + n)

/-- Only quotes, backslashes and control characters are escaped; a control character without a
letter of its own is written by its code in lower-case digits. -/
def escapeChar (c : Char) : List Char :=
  match c with
  | '"' => ['\\', '"']
  | '\\' => ['\\', '\\']
  | '\x08' => ['\\', 'b']
  | '\t' => ['\\', 't']
  | '\n' => ['\\', 'n']
  | '\x0c' => ['\\', 'f']
  | '\r' => ['\\', 'r']
  | c =>
      if c.toNat < 0x20 then
        ['\\', 'u', '0', '0', hexDigit (c.toNat / 16), hexDigit (c.toNat % 16)]
      else [c]

def quoted (s : String) : List Char :=
  '"' :: s.toList.flatMap escapeChar ++ ['"']

/-- How a container is spread over lines: what stands before an item, or a closing bracket, at a
level of nesting, and what divides a key from its value. -/
structure Style where
  line : Nat → List Char
  colon : List Char

namespace Style

def compact : Style where
  line _ := []
  colon := [':']

def pretty : Style where
  line level := '\n' :: List.replicate (2 * level) ' '
  colon := [':', ' ']

end Style

mutual

def write (style : Style) (level : Nat) : Value → List Char
  | .null => ['n', 'u', 'l', 'l']
  | .bool true => ['t', 'r', 'u', 'e']
  | .bool false => ['f', 'a', 'l', 's', 'e']
  | .num n => Nat.toDigits 10 n
  | .str s => quoted s
  | .arr [] => ['[', ']']
  | .arr (item :: rest) =>
      '[' :: style.line (level + 1) ++ write style (level + 1) item
        ++ writeItems style (level + 1) rest ++ style.line level ++ [']']
  | .obj [] => ['{', '}']
  | .obj ((key, item) :: rest) =>
      '{' :: style.line (level + 1) ++ quoted key ++ style.colon
        ++ write style (level + 1) item ++ writeFields style (level + 1) rest
        ++ style.line level ++ ['}']

def writeItems (style : Style) (level : Nat) : List Value → List Char
  | [] => []
  | item :: rest =>
      ',' :: style.line level ++ write style level item ++ writeItems style level rest

def writeFields (style : Style) (level : Nat) : List (String × Value) → List Char
  | [] => []
  | (key, item) :: rest =>
      ',' :: style.line level ++ quoted key ++ style.colon ++ write style level item
        ++ writeFields style level rest

end

def compact (v : Value) : String :=
  String.ofList (v.write .compact 0)

def pretty (v : Value) : String :=
  String.ofList (v.write .pretty 0)

mutual

/-- The same value with the fields of every object in the order of their keys. -/
def sortKeys : Value → Value
  | .arr items => .arr (sortKeysItems items)
  | .obj fields => .obj (sortBy (fun a b => decide (a.1 ≤ b.1)) (sortKeysFields fields))
  | v => v

def sortKeysItems : List Value → List Value
  | [] => []
  | item :: rest => sortKeys item :: sortKeysItems rest

def sortKeysFields : List (String × Value) → List (String × Value)
  | [] => []
  | (key, item) :: rest => (key, sortKeys item) :: sortKeysFields rest

end

end Value

end CallTrace.Json
