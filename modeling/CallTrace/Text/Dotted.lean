namespace CallTrace.Text

/-- The characters before and after the last dot, if there is a dot. -/
def splitLastDot? (cs : List Char) : Option (List Char × List Char) :=
  match cs.reverse.dropWhile (· != '.') with
  | [] => none
  | _ :: before => some (before.reverse, (cs.reverse.takeWhile (· != '.')).reverse)

/-- The text before the last dot, if there is a dot. -/
def beforeLastDot? (s : String) : Option String :=
  (splitLastDot? s.toList).map fun parts => String.ofList parts.1

/-- The text after the last dot, or all of it. -/
def afterLastDot (s : String) : String :=
  match splitLastDot? s.toList with
  | some parts => String.ofList parts.2
  | none => s

end CallTrace.Text
