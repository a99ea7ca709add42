namespace CallTrace.Json

inductive Glyph where
  | char (c : Char)
  | stray (b : UInt8)
  deriving DecidableEq, Repr

namespace Glyph

def ofString (s : String) : List Glyph :=
  s.toList.map .char

/-- The characters from a position on; a byte that starts no character stands for itself. -/
def ofBytesFrom (bytes : ByteArray) (i : Nat) (seen : List Glyph) : List Glyph :=
  if h : i < bytes.size then
    match bytes.utf8DecodeChar? i with
    | some c => ofBytesFrom bytes (i + c.utf8Size) (.char c :: seen)
    | none => ofBytesFrom bytes (i + 1) (.stray bytes[i] :: seen)
  else seen.reverse
termination_by bytes.size - i
decreasing_by
  · have := c.utf8Size_pos
    omega
  · omega

def ofBytes (bytes : ByteArray) : List Glyph :=
  ofBytesFrom bytes 0 []

end Glyph

end CallTrace.Json
