import CallTrace.Text.Blank
import CallTrace.Text.Dotted
import CallTrace.Text.Word

namespace CallTrace

structure AnnotationUse where
  /-- The name without its package. -/
  name : String
  /-- The text between the parentheses, trimmed; empty without any. -/
  arguments : String
  deriving DecidableEq, Repr

namespace AnnotationUse

def isNameChar (c : Char) : Bool :=
  Text.isWordChar c || c == '.'

/-- The text between an opening parenthesis and the last closing one, if nothing but blanks is
around them. -/
def enclosed? (cs : List Char) : Option (List Char) :=
  match cs with
  | '(' :: rest =>
      match rest.reverse.dropWhile Text.isBlankChar with
      | ')' :: inner => some inner.reverse
      | _ => none
  | _ => none

def parseChars? (raw : List Char) : Option (List Char × List Char) :=
  match raw.dropWhile Text.isBlankChar with
  | '@' :: cs =>
      let name := cs.takeWhile isNameChar
      let rest := (cs.dropWhile isNameChar).dropWhile Text.isBlankChar
      if name.isEmpty then none
      else if rest.isEmpty then some (name, [])
      else (enclosed? rest).map fun arguments => (name, arguments)
  | _ => none

def parse? (raw : String) : Option AnnotationUse :=
  (parseChars? raw.toList).map fun parts =>
    { name := Text.afterLastDot (String.ofList parts.1)
      arguments := Text.trim (String.ofList parts.2) }

def parseAll (raws : List String) : List AnnotationUse :=
  raws.filterMap parse?

/-- The text of the first string literal: all between the first two quotes. -/
def literal? (text : String) : Option String :=
  match (text.toList.dropWhile (· != '"')) with
  | [] => none
  | _ :: rest =>
      if rest.contains '"' then some (String.ofList (rest.takeWhile (· != '"'))) else none

end AnnotationUse

end CallTrace
