namespace CallTrace.Text

def decimalValue (digits : List Char) : Nat :=
  digits.foldl (fun n c => n * 10 + (c.toNat - 0x30)) 0

def dropPlus : List Char → List Char
  | '+' :: rest => rest
  | cs => cs

/-- A decimal number below a bound: digits, with leading zeros or a plus sign if they like. -/
def parseNatBelow? (bound : Nat) (cs : List Char) : Option Nat :=
  let digits := dropPlus cs
  if !digits.isEmpty && digits.all Char.isDigit && decimalValue digits < bound then
    some (decimalValue digits)
  else none

end CallTrace.Text
