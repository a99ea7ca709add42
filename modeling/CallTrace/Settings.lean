import CallTrace.Analysis
import CallTrace.Classifier.Naming
import CallTrace.Classifier.Spring
import CallTrace.Codec.Snapshot

namespace CallTrace

open Json

/-- Which classifier tells layers and entry points. -/
inductive ClassifierChoice where
  | spring
  | naming
  | composite
  | none
  deriving DecidableEq, Repr

namespace ClassifierChoice

def name : ClassifierChoice → String
  | .spring => "spring"
  | .naming => "naming"
  | .composite => "composite"
  | .none => "none"

def ofName? (name : String) : Option ClassifierChoice :=
  [spring, naming, composite, none].find? fun choice => choice.name == name

/-- Annotations count before names. -/
def classifier? : ClassifierChoice → Option Classifier
  | .spring => some .spring
  | .naming => some .naming
  | .composite => some (.composite [.spring, .naming])
  | .none => Option.none

end ClassifierChoice

structure Settings where
  maxDepth : Nat := 10
  classifier : ClassifierChoice := .composite
  includeInterfaceEntryPoints : Bool := false
  port : Nat := 8118
  deriving DecidableEq, Repr

namespace Settings

/-- The greatest depth is within the limit for trees. -/
def isValid (settings : Settings) : Bool :=
  settings.maxDepth ≤ maxTreeDepth

def toJson (settings : Settings) : Value :=
  .obj
    [("max_depth", .num settings.maxDepth), ("classifier", .str settings.classifier.name),
     ("include_interface_entry_points", .bool settings.includeInterfaceEntryPoints),
     ("port", .num settings.port)]

/-- Ports fit in 16 bits. -/
def portBound : Nat := 0x10000

def layout (levels : Nat) : Layout [Nat, ClassifierChoice, Bool, Nat] :=
  .cons (Decode.withDefault "max_depth" (Decode.natBelow depthBound) 10 levels) <|
  .cons (Decode.withDefault "classifier" (Decode.choice ClassifierChoice.ofName?) .composite
    levels) <|
  .cons (Decode.withDefault "include_interface_entry_points" Decode.bool false levels) <|
  .cons (Decode.withDefault "port" (Decode.natBelow portBound) 8118 levels) .nil

def ofRow : Row [Nat, ClassifierChoice, Bool, Nat] → Settings
  | (maxDepth, classifier, includeInterfaceEntryPoints, port, ()) =>
      { maxDepth, classifier, includeInterfaceEntryPoints, port }

def decode : Decoder Settings :=
  Decode.record layout ofRow

end Settings

end CallTrace
