namespace CallTrace.CommandLine

def hexDigit? (c : Char) : Bool :=
  c.isDigit || ('a' ≤ c && c ≤ 'f') || ('A' ≤ c && c ≤ 'F')

/-- One to three digits without a leading zero, at most 255. -/
def readOctet (cs : List Char) : Option (List Char) :=
  let digits := cs.takeWhile Char.isDigit
  let value := digits.foldl (fun n c => n * 10 + (c.toNat - 0x30)) 0
  if digits.isEmpty || digits.length > 3 || value > 255 then none
  else if digits.length > 1 && digits.head? == some '0' then none
  else some (cs.dropWhile Char.isDigit)

def readChar (c : Char) : List Char → Option (List Char)
  | d :: rest => if c == d then some rest else none
  | [] => none

def readIPv4 (cs : List Char) : Option (List Char) := do
  let cs ← readOctet cs
  let cs ← readOctet (← readChar '.' cs)
  let cs ← readOctet (← readChar '.' cs)
  readOctet (← readChar '.' cs)

def readGroup (cs : List Char) : Option (List Char) :=
  let digits := cs.takeWhile hexDigit?
  if digits.isEmpty || digits.length > 4 then none else some (cs.dropWhile hexDigit?)

/-- A colon before every group but the first. -/
def readSeparator (isFirst : Bool) (cs : List Char) : Option (List Char) :=
  if isFirst then some cs else readChar ':' cs

/-- Groups with colons between them, at most `limit`; an IPv4 address may take the place of the
last two. Gives their number, whether there was such an address, and the rest. -/
def readGroups : (limit count : Nat) → List Char → Nat × Bool × List Char
  | 0, count, cs => (count, false, cs)
  | limit + 1, count, cs =>
      let piece := readSeparator (count == 0) cs
      match if limit == 0 then none else piece.bind readIPv4 with
      | some rest => (count + 2, true, rest)
      | none =>
          match piece.bind readGroup with
          | some rest => readGroups limit (count + 1) rest
          | none => (count, false, cs)

/-- Eight groups, or fewer with one `::` for those left out. -/
def readIPv6 (cs : List Char) : Option (List Char) :=
  match readGroups 8 0 cs with
  | (8, _, rest) => some rest
  | (_, true, _) => none
  | (count, false, rest) => do
      let rest ← readChar ':' (← readChar ':' rest)
      return (readGroups (7 - count) 0 rest).2.2

/-- A scope after a percent sign, if there is one. -/
def readScope (cs : List Char) : Option (List Char) :=
  match cs with
  | '%' :: rest =>
      let digits := rest.takeWhile Char.isDigit
      let value := digits.foldl (fun n c => n * 10 + (c.toNat - 0x30)) 0
      if digits.isEmpty || value ≥ 0x100000000 then none else some (rest.dropWhile Char.isDigit)
  | cs => some cs

/-- A host that can stand before a port: an IPv4 address, or an IPv6 address in brackets. -/
def isHost (host : String) : Bool :=
  match host.toList with
  | '[' :: cs =>
      match (readIPv6 cs).bind readScope with
      | some [']'] => true
      | _ => false
  | cs => readIPv4 cs == some []

end CallTrace.CommandLine
