import CallTrace.Codebase
import CallTrace.EntryPoint
import CallTrace.Layer

/-! Classifiers: they tell layers and entry points. Several can be merged into one. -/

namespace CallTrace

structure Classifier where
  name : String
  /-- The layer of a method, by the name of its class, the class itself if it is known, and the
  name of the method. -/
  layerOf : String → Option ClassDecl → String → Layer
  entryPoints : Codebase → List EntryPoint

namespace Classifier

def firstKnown (layers : List Layer) : Layer :=
  (layers.find? fun layer => !layer.isUnknown).getD .unknown

/-- Asks several classifiers: the first known layer, and the first entry point of each signature,
are the answer. -/
def composite (members : List Classifier) : Classifier where
  name := "composite"
  layerOf className decl method :=
    firstKnown (members.map fun member => member.layerOf className decl method)
  entryPoints code :=
    EntryPoint.firstBySignature (members.flatMap fun member => member.entryPoints code)

/-- Layers and entry points from a fixed table. A layer is looked up by signature, then by class,
then, for a class that is known, under `*`. -/
def table (layers : List (String × String)) (entries : List EntryPoint) : Classifier where
  name := "table"
  layerOf className decl method :=
    let keys := [Signature.join className method, className] ++ (if decl.isSome then ["*"] else [])
    match keys.findSome? fun key => layers.lookup key with
    | some label => .ofLabel label
    | none => .unknown
  entryPoints _ := entries

end Classifier

end CallTrace
