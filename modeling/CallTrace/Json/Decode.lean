import CallTrace.Json.Reading
import CallTrace.SortedMap
import CallTrace.Text.Number

/-!
Decoders: from what was read of a document to values of other types. A decoder walks a reading in
order and stops at the first fault. It is told how many more levels of arrays and objects may be
opened; what no decoder looks at may nest to any depth.
-/

namespace CallTrace.Json

/-- Why a document was refused. -/
inductive Fault where
  /-- The text is not JSON, or nests too deep. -/
  | text
  /-- The JSON has the wrong shape. -/
  | shape
  deriving DecidableEq, Repr

/-- How many levels of arrays and objects a decoder may open. -/
def maxLevels : Nat := 127

abbrev Decoder (α : Type) := Nat → Reading → Except Fault α

/-- The least magnitude that has no finite double: half a step above the largest one. -/
def doubleOverflow : Nat := (Nat.pow 2 54 - 1) * Nat.pow 2 970

/-- The number is too large for a double. -/
def exceedsDouble (lexeme : List Char) : Bool :=
  let unsigned := lexeme.dropWhile (· == '-')
  let whole := unsigned.takeWhile Char.isDigit
  let rest := unsigned.dropWhile Char.isDigit
  let fraction := if rest.head? == some '.' then rest.tail.takeWhile Char.isDigit else []
  let tail := rest.dropWhile fun c => c != 'e' && c != 'E'
  let exponent := Text.decimalValue (tail.filter Char.isDigit)
  let digits := (whole ++ fraction).dropWhile (· == '0')
  let significand := Text.decimalValue digits
  let scale : Int := (if tail.contains '-' then -(exponent : Int) else exponent) - fraction.length
  let order := digits.length + scale
  if digits.isEmpty then false
  else if order > 310 then true
  else if order < 300 then false
  else if scale ≥ 0 then significand * Nat.pow 10 scale.toNat ≥ doubleOverflow
  else significand ≥ doubleOverflow * Nat.pow 10 (-scale).toNat

namespace Reading

/-- The fault of finding this where something else is wanted. -/
def mismatch : Reading → Fault
  | .broken => .text
  | .str none => .text
  | .num lexeme => if exceedsDouble lexeme then .text else .shape
  | _ => .shape

/-- The fault of finding this where no more level may be opened. -/
def tooDeep : Reading → Fault
  | .arr _ _ => .text
  | .obj _ _ => .text
  | r => r.mismatch

end Reading

namespace Decode

def text : Decoder String
  | _, .str (some s) => .ok s
  | _, r => .error r.mismatch

def bool : Decoder Bool
  | _, .bool b => .ok b
  | _, r => .error r.mismatch

/-- A plain integer below a bound; signs, fractions and exponents are of the wrong shape. -/
def natBelow (bound : Nat) : Decoder Nat
  | _, .num lexeme =>
      if lexeme.all Char.isDigit && Text.decimalValue lexeme < bound then
        .ok (Text.decimalValue lexeme)
      else .error (Reading.num lexeme).mismatch
  | _, r => .error r.mismatch

def optional (item : Decoder α) : Decoder (Option α)
  | _, .null => .ok none
  | levels, r => (item levels r).map some

def items (item : Reading → Except Fault α) (closed : Bool) : List Reading → Except Fault (List α)
  | [] => if closed then .ok [] else .error .text
  | r :: rest => do
      let a ← item r
      let as ← items item closed rest
      return a :: as

def list (item : Decoder α) : Decoder (List α)
  | 0, r => .error r.tooDeep
  | levels + 1, .arr readings closed => items (item levels) closed readings
  | _ + 1, r => .error r.mismatch

/-- An object with any keys; of a repeated key the last value stays. -/
def entries (item : Reading → Except Fault α) (closed : Bool) :
    SortedMap α → List (Option String × Reading) → Except Fault (SortedMap α)
  | map, [] => if closed then .ok map else .error .text
  | _, (none, _) :: _ => .error .text
  | map, (some key, r) :: rest => do
      let a ← item r
      entries item closed (map.insert key a) rest

def dictionary (item : Decoder α) : Decoder (SortedMap α)
  | 0, r => .error r.tooDeep
  | levels + 1, .obj fields closed => entries (item levels) closed .empty fields
  | _ + 1, r => .error r.mismatch

/-- One of several names, as a string or as the only key of an object, with `null` as its value. -/
def choice (find : String → Option α) : Decoder α
  | _, .str (some name) =>
      match find name with
      | some a => .ok a
      | none => .error .shape
  | 0, r => .error r.tooDeep
  | _ + 1, .obj [] closed => .error (if closed then .shape else .text)
  | _ + 1, .obj ((none, _) :: _) _ => .error .text
  | _ + 1, .obj ((some name, r) :: rest) closed =>
      match find name, r with
      | none, _ => .error .shape
      | some a, .null => if closed && rest.isEmpty then .ok a else .error .text
      | some _, r => .error r.mismatch
  | _ + 1, r => .error r.mismatch

end Decode

/-- A field of a record: its key, how its value is read, and its value when it is left out. -/
structure Field (α : Type) where
  key : String
  read : Reading → Except Fault α
  absent : Option α

inductive Layout : List Type → Type 1 where
  | nil : Layout []
  | cons {α : Type} {ts : List Type} (field : Field α) (rest : Layout ts) : Layout (α :: ts)

def Row : List Type → Type
  | [] => Unit
  | t :: ts => t × Row ts

def Draft : List Type → Type
  | [] => Unit
  | t :: ts => Option t × Draft ts

namespace Layout

def blank : Layout ts → Draft ts
  | .nil => ()
  | .cons _ rest => (none, rest.blank)

/-- Takes one key and its value. A field comes once; a key of no field is passed over. -/
def put (key : String) (r : Reading) : Layout ts → Draft ts → Except Fault (Draft ts)
  | .nil, _ => if r.isWhole then .ok () else .error .text
  | .cons field rest, (slot, draft) =>
      if field.key == key then
        match slot with
        | some _ => .error .shape
        | none => (field.read r).map fun a => (some a, draft)
      else (rest.put key r draft).map fun draft => (slot, draft)

def putAll (layout : Layout ts) (closed : Bool) :
    Draft ts → List (Option String × Reading) → Except Fault (Draft ts)
  | draft, [] => if closed then .ok draft else .error .text
  | _, (none, _) :: _ => .error .text
  | draft, (some key, r) :: rest => do
      let draft ← layout.put key r draft
      layout.putAll closed draft rest

def complete : Layout ts → Draft ts → Except Fault (Row ts)
  | .nil, _ => .ok ()
  | .cons field rest, (slot, draft) =>
      match slot.or field.absent with
      | none => .error .shape
      | some a => (rest.complete draft).map fun row => (a, row)

/-- Takes the values of the fields in order, from an array. Fields at the end may be left out. -/
def ofItems (closed : Bool) : Layout ts → List Reading → Except Fault (Row ts)
  | .nil, [] => if closed then .ok () else .error .text
  | .nil, _ :: _ => .error .text
  | .cons field rest, [] =>
      if closed then
        match field.absent with
        | none => .error .shape
        | some a => (rest.ofItems closed []).map fun row => (a, row)
      else .error .text
  | .cons field rest, r :: items => do
      let a ← field.read r
      let row ← rest.ofItems closed items
      return (a, row)

def read (layout : Layout ts) : Reading → Except Fault (Row ts)
  | .obj fields closed => do
      let draft ← layout.putAll closed layout.blank fields
      layout.complete draft
  | .arr items closed => layout.ofItems closed items
  | r => .error r.mismatch

end Layout

namespace Decode

def required (key : String) (read : Decoder α) (levels : Nat) : Field α :=
  ⟨key, read levels, none⟩

def withDefault (key : String) (read : Decoder α) (absent : α) (levels : Nat) : Field α :=
  ⟨key, read levels, some absent⟩

/-- A record, as an object or as an array of its fields in order. -/
def record (layout : Nat → Layout ts) (make : Row ts → α) : Decoder α
  | 0, r => .error r.tooDeep
  | levels + 1, r => ((layout levels).read r).map make

end Decode

namespace Document

/-- Decodes a whole document; nothing may follow its value. -/
def decode (document : Document) (decoder : Decoder α) : Except Fault α := do
  let a ← decoder maxLevels document.value
  if document.more then .error .text else .ok a

end Document

end CallTrace.Json
