import CallTrace.Codec.Snapshot
import CallTrace.Text.Number

namespace CallTrace.Http

def hexValue? (c : Char) : Option Nat :=
  if c.isDigit then some (c.toNat - 0x30)
  else if 'a' ≤ c && c ≤ 'f' then some (c.toNat - 0x57)
  else if 'A' ≤ c && c ≤ 'F' then some (c.toNat - 0x37)
  else none

/-- Decodes a key or a value. What is no escape stands for itself; bytes beyond ASCII are kept one
by one, which no key or number of this interface has. -/
def decodeForm : List Char → List Char
  | '+' :: rest => ' ' :: decodeForm rest
  | '%' :: a :: b :: rest =>
      match hexValue? a, hexValue? b with
      | some high, some low => Char.ofNat (16 * high + low) :: decodeForm rest
      | _, _ => '%' :: decodeForm (a :: b :: rest)
  | c :: rest => c :: decodeForm rest
  | [] => []

/-- The pairs of a query string; empty pieces are passed over. -/
def queryPairs (query : String) : List (List Char × List Char) :=
  (((query.splitOn "&").map String.toList).filter fun piece => !piece.isEmpty).map fun piece =>
    (decodeForm (piece.takeWhile (· != '=')), decodeForm ((piece.dropWhile (· != '=')).drop 1))

/-- The depth a query asks for. It may be given once, as a number; anything else is refused. -/
def depthOf? (query : String) : Option (Option Nat) :=
  match (queryPairs query).filter fun pair => pair.1 == "max_depth".toList with
  | [] => some none
  | [pair] => (Text.parseNatBelow? depthBound pair.2).map some
  | _ => none

end CallTrace.Http
