import CallTrace.Codebase
import CallTrace.TypeName

namespace CallTrace

namespace Binding

/-- The name and bare type of a binding; nothing if either is empty. -/
def typed? (b : Binding) : Option (String × String) :=
  if b.name == "" || TypeName.base b.declaredType == "" then none
  else some (b.name, TypeName.base b.declaredType)

end Binding

structure Scope where
  className : String
  /-- Field names and their types; of a repeated name the first counts. -/
  fields : List (String × String)
  /-- Parameters, then local variables; of a repeated name the last counts. -/
  locals : List (String × String)
  deriving DecidableEq, Repr

namespace Scope

def local? (scope : Scope) (name : String) : Option String :=
  scope.locals.reverse.lookup name

def field? (scope : Scope) (name : String) : Option String :=
  scope.fields.lookup name

/-- Parameters and local variables hide fields. -/
def lookup? (scope : Scope) (name : String) : Option String :=
  (scope.local? name).or (scope.field? name)

end Scope

namespace Codebase

/-- The typed fields of a class; of several classes with the name the first counts. -/
def fieldsOf (code : Codebase) (className : String) : List (String × String) :=
  match code.findSimple? className with
  | some c => c.fields.filterMap Binding.typed?
  | none => []

def fieldType? (code : Codebase) (className field : String) : Option String :=
  (code.fieldsOf className).lookup field

def scope (code : Codebase) (className : String) (method : MethodDecl) : Scope where
  className := className
  fields := code.fieldsOf className
  locals := (method.parameters ++ method.locals).filterMap Binding.typed?

end Codebase

end CallTrace
