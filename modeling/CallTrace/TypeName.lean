import CallTrace.Text.Blank

namespace CallTrace.TypeName

/-- Drops every leading `...`; reversed, the variable-arity marks of a type. -/
def dropEllipses : List Char → List Char
  | '.' :: '.' :: '.' :: rest => dropEllipses rest
  | rest => rest

/-- Drops every leading `][`; reversed, the array marks of a type. -/
def dropBrackets : List Char → List Char
  | ']' :: '[' :: rest => dropBrackets rest
  | rest => rest

/-- The bare name of a declared type: type arguments, variable-arity marks, then array marks are
cut off, and of what is left the last word stays. -/
def baseChars (declared : List Char) : List Char :=
  let raw := Text.trimChars (declared.takeWhile (· != '<'))
  Text.lastWord (dropBrackets (dropEllipses raw.reverse)).reverse

def base (declared : String) : String :=
  String.ofList (baseChars declared.toList)

end CallTrace.TypeName
