/-! Facts about source code: classes with their fields, methods and raw calls. -/

namespace CallTrace

/-- A field, parameter or local variable with its type as written. -/
structure Binding where
  name : String
  declaredType : String
  deriving DecidableEq, Repr

structure MethodDecl where
  name : String
  annotations : List String := []
  parameters : List Binding := []
  locals : List Binding := []
  /-- The calls in the body as written, `method` or `receiver.method`. -/
  calls : List String := []
  body : Option String := none
  deriving DecidableEq, Repr

structure ClassDecl where
  name : String
  /-- Empty for the default package. -/
  package : String := ""
  isInterface : Bool := false
  /-- Implemented interfaces as written, simple or qualified. -/
  interfaces : List String := []
  annotations : List String := []
  fields : List Binding := []
  methods : List MethodDecl := []
  filePath : String := ""
  deriving DecidableEq, Repr

namespace ClassDecl

def qualifiedName (c : ClassDecl) : String :=
  if c.package == "" then c.name else c.package ++ "." ++ c.name

def method? (c : ClassDecl) (name : String) : Option MethodDecl :=
  c.methods.find? fun m => m.name == name

def declares (c : ClassDecl) (name : String) : Bool :=
  (c.method? name).isSome

/-- Fills in the file of a class that names none. -/
def withFile (c : ClassDecl) (file : String) : ClassDecl :=
  if c.filePath == "" then { c with filePath := file } else c

end ClassDecl

/-- All classes one analysis works on, in the order they were given. -/
structure Codebase where
  classes : List ClassDecl := []
  deriving DecidableEq, Repr

namespace Codebase

def findSimple? (code : Codebase) (name : String) : Option ClassDecl :=
  code.classes.find? fun c => c.name == name

def findQualified? (code : Codebase) (name : String) : Option ClassDecl :=
  code.classes.find? fun c => c.qualifiedName == name

/-- The first class with a simple name, or else with a qualified name. -/
def find? (code : Codebase) (name : String) : Option ClassDecl :=
  (code.findSimple? name).or (code.findQualified? name)

def contains (code : Codebase) (name : String) : Bool :=
  (code.find? name).isSome

def methodCount (code : Codebase) : Nat :=
  (code.classes.flatMap fun c => c.methods).length

def classNames (code : Codebase) : List String :=
  (code.classes.map fun c => c.name).eraseDups

end Codebase

end CallTrace
