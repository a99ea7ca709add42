import CallTrace.Codebase
import CallTrace.Signature
import CallTrace.TypeName

/-! The types of a codebase and which classes say they implement which interfaces. -/

namespace CallTrace

structure TypeInfo where
  name : String
  qualifiedName : String
  isInterface : Bool
  filePath : String
  methods : List String
  deriving DecidableEq, Repr

namespace TypeInfo

def ofClass (c : ClassDecl) : TypeInfo where
  name := c.name
  qualifiedName := c.qualifiedName
  isInterface := c.isInterface
  filePath := c.filePath
  methods := c.methods.map fun m => m.name

end TypeInfo

structure Hierarchy where
  /-- One type for each simple name: the first that was registered. -/
  types : List TypeInfo := []
  /-- Interfaces as implementing classes write them, each with the classes in order. -/
  declared : List (String × List String) := []
  deriving DecidableEq, Repr

namespace Hierarchy

def register (h : Hierarchy) (info : TypeInfo) : Hierarchy :=
  if h.types.any fun t => t.name == info.name then h
  else { h with types := h.types ++ [info] }

/-- Notes a class under an interface, once. -/
def insertDeclared (key className : String) :
    List (String × List String) → List (String × List String)
  | [] => [(key, [className])]
  | (k, classes) :: rest =>
      if k == key then
        (k, if classes.contains className then classes else classes ++ [className]) :: rest
      else (k, classes) :: insertDeclared key className rest

def declare (h : Hierarchy) (className interface : String) : Hierarchy :=
  if TypeName.base interface == "" then h
  else { h with declared := insertDeclared (TypeName.base interface) className h.declared }

/-- Takes in one class. Classes without a name are left out; interfaces implement nothing. -/
def addClass (h : Hierarchy) (c : ClassDecl) : Hierarchy :=
  if c.name == "" then h
  else if c.isInterface then h.register (.ofClass c)
  else c.interfaces.foldl (fun h i => h.declare c.name i) (h.register (.ofClass c))

def ofCodebase (code : Codebase) : Hierarchy :=
  code.classes.foldl addClass {}

def type? (h : Hierarchy) (name : String) : Option TypeInfo :=
  h.types.find? fun t => t.name == name

def contains (h : Hierarchy) (name : String) : Bool :=
  (h.type? name).isSome

def file? (h : Hierarchy) (name : String) : Option String :=
  (h.type? name).map fun info => info.filePath

/-- The classes that list an interface under exactly this name. -/
def declaring (h : Hierarchy) (key : String) : List String :=
  (h.declared.lookup key).getD []

/-- A known interface, or an unknown type that some class says it implements. -/
def isInterface (h : Hierarchy) (name : String) : Bool :=
  match h.type? name with
  | some info => info.isInterface
  | none => (h.declared.lookup name).isSome

def declares (h : Hierarchy) (className method : String) : Bool :=
  match h.type? className with
  | some info => info.methods.contains method
  | none => false

/-- The names an interface may be listed under: its simple name, the qualified name of the type
known by that, and the name itself. -/
def keysOf (h : Hierarchy) (name : String) : List String :=
  let simple := Text.afterLastDot name
  [simple] ++ ((h.type? simple).map fun info => info.qualifiedName).toList
    ++ (if name == simple then [] else [name])

/-- The classes that implement an interface, each once, those that list it by its simple name
first. -/
def implementors (h : Hierarchy) (name : String) : List String :=
  ((h.keysOf name).flatMap h.declaring).eraseDups

def targets (h : Hierarchy) (interface method : String) : List Signature :=
  if h.isInterface interface then
    ((h.implementors interface).filter fun c => h.declares c method).map
      fun c => Signature.join c method
  else []

end Hierarchy

end CallTrace
