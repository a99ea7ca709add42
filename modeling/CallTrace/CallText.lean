import CallTrace.Text.Blank

namespace CallTrace

/-- A call expression without argument lists, blanks and a leading `this.`. -/
structure CallText where
  text : String
  /-- The receiver was written on `this`, so no local variable can stand for it. -/
  onThis : Bool
  deriving DecidableEq, Repr

namespace CallText

/-- The characters outside all parentheses that are not blank. A closing parenthesis without an
opening one is dropped. -/
def outsideParens : Nat → List Char → List Char
  | _, [] => []
  | depth, '(' :: rest => outsideParens (depth + 1) rest
  | depth, ')' :: rest => outsideParens (depth - 1) rest
  | 0, c :: rest =>
      if Text.isBlankChar c then outsideParens 0 rest else c :: outsideParens 0 rest
  | depth + 1, _ :: rest => outsideParens (depth + 1) rest

def stripThis : List Char → List Char × Bool
  | 't' :: 'h' :: 'i' :: 's' :: '.' :: rest => (rest, true)
  | cs => (cs, false)

def parseChars (raw : List Char) : List Char × Bool :=
  let stripped := stripThis (outsideParens 0 raw)
  (Text.dropBothWhile (· == '.') stripped.1, stripped.2)

def parse (raw : String) : CallText :=
  let parsed := parseChars raw.toList
  ⟨String.ofList parsed.1, parsed.2⟩

end CallText

end CallTrace
