import CallTrace.Classifier
import CallTrace.Classifier.AnnotationUse

namespace CallTrace.Classifier

namespace Spring

/-- Stereotype annotations with their layers; earlier ones count first. -/
def stereotypes : List (List String × Layer) :=
  [(["RestController", "Controller"], .controller), (["Service"], .service),
   (["Repository", "Mapper"], .repository), (["Component"], .component)]

def layer (c : ClassDecl) : Layer :=
  let names := (AnnotationUse.parseAll c.annotations).map fun a => a.name
  match stereotypes.find? fun stereotype => names.any stereotype.1.contains with
  | some stereotype => stereotype.2
  | none => .unknown

/-- The route of a class and of a method under it, joined by one slash and starting with one. -/
def joinRoute (base path : String) : String :=
  let base := Text.dropEndWhile (· == '/') (Text.trimChars base.toList)
  let path := (Text.trimChars path.toList).dropWhile (· == '/')
  let joined :=
    if base.isEmpty then path
    else if path.isEmpty then base
    else base ++ '/' :: path
  String.ofList (if joined.head? == some '/' then joined else '/' :: joined)

def classRoute (c : ClassDecl) : String :=
  match (AnnotationUse.parseAll c.annotations).find? fun a => a.name == "RequestMapping" with
  | some a => (AnnotationUse.literal? a.arguments).getD ""
  | none => ""

/-- The texts before and after the first place where a pattern stands, if it does. -/
def splitFirst? (pattern : List Char) : List Char → Option (List Char × List Char)
  | [] => none
  | c :: cs =>
      if pattern.isPrefixOf (c :: cs) then some ([], (c :: cs).drop pattern.length)
      else (splitFirst? pattern cs).map fun parts => (c :: parts.1, parts.2)

def methodMark : List Char := "RequestMethod.".toList

/-- The request method named first in the arguments of a general mapping. -/
def requestMethod (arguments : String) : String :=
  match splitFirst? methodMark arguments.toList with
  | some (_, rest) =>
      let named := ((splitFirst? methodMark rest).map Prod.fst).getD rest
      let letters := named.takeWhile Char.isAlpha
      if letters.isEmpty then "REQUEST" else String.ofList letters
  | none => "REQUEST"

def mappings : List (String × String) :=
  [("GetMapping", "GET"), ("PostMapping", "POST"), ("PutMapping", "PUT"),
   ("DeleteMapping", "DELETE"), ("PatchMapping", "PATCH")]

/-- Kind and path that an annotation gives to a method under a class route. -/
def route? (base : String) (a : AnnotationUse) : Option (String × String) :=
  let path := joinRoute base ((AnnotationUse.literal? a.arguments).getD "")
  match mappings.lookup a.name with
  | some kind => some (kind, path)
  | none =>
      if a.name == "RequestMapping" then some (requestMethod a.arguments, path)
      else if a.name == "Scheduled" then
        some ("SCHEDULED", (AnnotationUse.literal? a.arguments).getD a.arguments)
      else none

def methodRoute? (base : String) (m : MethodDecl) : Option (String × String) :=
  (AnnotationUse.parseAll m.annotations).findSome? (route? base)

def classEntryPoints (c : ClassDecl) : List EntryPoint :=
  if Text.isBlank c.name then []
  else
    c.methods.filterMap fun m =>
      (methodRoute? (classRoute c) m).map fun (kind, path) =>
        .ofMethod kind path c.name m.name c.filePath

end Spring

def spring : Classifier where
  name := "spring"
  layerOf _ decl _ :=
    match decl with
    | some c => Spring.layer c
    | none => .unknown
  entryPoints code := code.classes.flatMap Spring.classEntryPoints

end CallTrace.Classifier
