import CallTrace.Text.Dotted

namespace CallTrace

/-- The key of a method, `Class.method`; overloads share one. -/
abbrev Signature := String

namespace Signature

def join (owner method : String) : Signature :=
  owner ++ "." ++ method

def owner? (s : Signature) : Option String :=
  Text.beforeLastDot? s

def qualifier (s : Signature) : String :=
  (owner? s).getD ""

def method (s : Signature) : String :=
  Text.afterLastDot s

end Signature

end CallTrace
