import CallTrace.FactSource
import CallTrace.Json.Decode
import CallTrace.Json.Value

namespace CallTrace

open Json

namespace Binding

def toJson (b : Binding) : Value :=
  .obj [("name", .str b.name), ("declared_type", .str b.declaredType)]

def layout (levels : Nat) : Layout [String, String] :=
  .cons (Decode.required "name" Decode.text levels) <|
  .cons (Decode.required "declared_type" Decode.text levels) .nil

def ofRow : Row [String, String] → Binding
  | (name, declaredType, ()) => { name, declaredType }

def decode : Decoder Binding :=
  Decode.record layout ofRow

end Binding

namespace MethodDecl

def toJson (m : MethodDecl) : Value :=
  .obj
    ([("name", .str m.name), ("annotations", .strings m.annotations),
      ("parameters", .list Binding.toJson m.parameters),
      ("locals", .list Binding.toJson m.locals), ("calls", .strings m.calls)]
      ++ (m.body.toList.map fun body => ("body", .str body)))

def layout (levels : Nat) : Layout
    [String, List String, List Binding, List Binding, List String, Option String] :=
  .cons (Decode.required "name" Decode.text levels) <|
  .cons (Decode.withDefault "annotations" (Decode.list Decode.text) [] levels) <|
  .cons (Decode.withDefault "parameters" (Decode.list Binding.decode) [] levels) <|
  .cons (Decode.withDefault "locals" (Decode.list Binding.decode) [] levels) <|
  .cons (Decode.withDefault "calls" (Decode.list Decode.text) [] levels) <|
  .cons (Decode.withDefault "body" (Decode.optional Decode.text) none levels) .nil

def ofRow :
    Row [String, List String, List Binding, List Binding, List String, Option String] → MethodDecl
  | (name, annotations, parameters, locals, calls, body, ()) =>
      { name, annotations, parameters, locals, calls, body }

def decode : Decoder MethodDecl :=
  Decode.record layout ofRow

end MethodDecl

namespace ClassDecl

def toJson (c : ClassDecl) : Value :=
  .obj
    [("name", .str c.name), ("package", .str c.package), ("is_interface", .bool c.isInterface),
     ("interfaces", .strings c.interfaces), ("annotations", .strings c.annotations),
     ("fields", .list Binding.toJson c.fields), ("methods", .list MethodDecl.toJson c.methods),
     ("file_path", .str c.filePath)]

def layout (levels : Nat) : Layout
    [String, String, Bool, List String, List String, List Binding, List MethodDecl, String] :=
  .cons (Decode.required "name" Decode.text levels) <|
  .cons (Decode.withDefault "package" Decode.text "" levels) <|
  .cons (Decode.withDefault "is_interface" Decode.bool false levels) <|
  .cons (Decode.withDefault "interfaces" (Decode.list Decode.text) [] levels) <|
  .cons (Decode.withDefault "annotations" (Decode.list Decode.text) [] levels) <|
  .cons (Decode.withDefault "fields" (Decode.list Binding.decode) [] levels) <|
  .cons (Decode.withDefault "methods" (Decode.list MethodDecl.decode) [] levels) <|
  .cons (Decode.withDefault "file_path" Decode.text "" levels) .nil

def ofRow :
    Row [String, String, Bool, List String, List String, List Binding, List MethodDecl, String] →
      ClassDecl
  | (name, package, isInterface, interfaces, annotations, fields, methods, filePath, ()) =>
      { name, package, isInterface, interfaces, annotations, fields, methods, filePath }

def decode : Decoder ClassDecl :=
  Decode.record layout ofRow

end ClassDecl

namespace FileEntry

def layout (levels : Nat) : Layout [String, List ClassDecl, Option String] :=
  .cons (Decode.required "path" Decode.text levels) <|
  .cons (Decode.withDefault "classes" (Decode.list ClassDecl.decode) [] levels) <|
  .cons (Decode.withDefault "error" (Decode.optional Decode.text) none levels) .nil

def ofRow : Row [String, List ClassDecl, Option String] → FileEntry
  | (path, classes, error, ()) => { path, classes, error }

def decode : Decoder FileEntry :=
  Decode.record layout ofRow

end FileEntry

namespace FactsDocument

def layout (levels : Nat) : Layout [List FileEntry] :=
  .cons (Decode.withDefault "files" (Decode.list FileEntry.decode) [] levels) .nil

def ofRow : Row [List FileEntry] → FactsDocument
  | (files, ()) => { files }

def decode : Decoder FactsDocument :=
  Decode.record layout ofRow

end FactsDocument

end CallTrace
