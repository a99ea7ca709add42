import CallTrace.CallText
import CallTrace.Scope
import CallTrace.Signature

/-! Resolution of raw calls to the methods they may mean. -/

namespace CallTrace

inductive Resolution where
  /-- The type of the receiver is known; the class itself need not be. -/
  | resolved (owner method : String)
  /-- The receiver has no known type, and the expression stands for the callee. -/
  | heuristic (expression : String)
  deriving DecidableEq, Repr

namespace Resolution

def signature : Resolution → Signature
  | .resolved owner method => Signature.join owner method
  | .heuristic expression => expression

def owner? : Resolution → Option String
  | .resolved owner _ => some owner
  | .heuristic _ => none

def method : Resolution → String
  | .resolved _ method => method
  | .heuristic expression => Signature.method expression

end Resolution

namespace Codebase

/-- The simple name of the class a type means, if it is known, or else the bare type. -/
def canonicalClass (code : Codebase) (declared : String) : String :=
  match code.find? (TypeName.base declared) with
  | some c => c.name
  | none => TypeName.base declared

/-- The class of a receiver: by its type as a local variable or field, or, unless it was written
on `this`, as the name of a class. -/
def receiver? (code : Codebase) (scope : Scope) (onThis : Bool) (name : String) : Option String :=
  if onThis then (scope.field? name).map code.canonicalClass
  else
    match scope.lookup? name with
    | some type => some (code.canonicalClass type)
    | none => (code.find? name).map fun c => c.name

/-- What a raw call means in a scope; nothing if no call is left of it. -/
def resolve (code : Codebase) (scope : Scope) (raw : String) : Option Resolution :=
  let call := CallText.parse raw
  let name := Signature.qualifier call.text
  let method := Signature.method call.text
  if call.text == "" then none
  else if method == "" then some (.heuristic call.text)
  else if name == "" then some (.resolved scope.className method)
  else
    match code.receiver? scope call.onThis name with
    | some owner => some (.resolved owner method)
    | none => some (.heuristic (Signature.join name method))

end Codebase

end CallTrace
