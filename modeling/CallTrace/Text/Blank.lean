namespace CallTrace.Text

/-- The characters with the Unicode property White_Space. -/
def isBlankChar (c : Char) : Bool :=
  (0x09 ≤ c.toNat && c.toNat ≤ 0x0D) || c.toNat == 0x20 || c.toNat == 0x85 ||
    c.toNat == 0xA0 || c.toNat == 0x1680 || (0x2000 ≤ c.toNat && c.toNat ≤ 0x200A) ||
    c.toNat == 0x2028 || c.toNat == 0x2029 || c.toNat == 0x202F || c.toNat == 0x205F ||
    c.toNat == 0x3000

/-- A text is blank when it has no other characters than blank ones. -/
def isBlank (s : String) : Bool :=
  s.toList.all isBlankChar

def dropEndWhile (p : Char → Bool) (cs : List Char) : List Char :=
  (cs.reverse.dropWhile p).reverse

def dropBothWhile (p : Char → Bool) (cs : List Char) : List Char :=
  dropEndWhile p (cs.dropWhile p)

def trimChars (cs : List Char) : List Char :=
  dropBothWhile isBlankChar cs

def trim (s : String) : String :=
  String.ofList (trimChars s.toList)

/-- The last run of characters that are not blank, empty when there is none. -/
def lastWord (cs : List Char) : List Char :=
  ((cs.reverse.dropWhile isBlankChar).takeWhile fun c => !isBlankChar c).reverse

end CallTrace.Text
