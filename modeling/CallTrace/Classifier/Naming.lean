import CallTrace.Classifier

namespace CallTrace.Classifier

namespace Naming

def endsWith (name ending : String) : Bool :=
  ending.toList.isSuffixOf name.toList

/-- The name without one `Impl` at its end. -/
def withoutImpl (name : String) : String :=
  if endsWith name "Impl" then String.ofList (name.toList.take (name.length - 4)) else name

def endings : List (String × Layer) :=
  [("Controller", .controller), ("Service", .service), ("Repository", .repository),
   ("Dao", .repository), ("DAO", .repository), ("Mapper", .repository)]

def layer (className : String) : Layer :=
  match endings.find? fun ending => endsWith (withoutImpl className) ending.1 with
  | some ending => ending.2
  | none => .unknown

/-- A method of a controller that handles requests: no constructor, nothing internal or
generated. -/
def isHandler (className method : String) : Bool :=
  method != "" && method != className && !("_".toList.isPrefixOf method.toList)
    && !("lambda$".toList.isPrefixOf method.toList) && method != "<init>"

def isBatch (c : ClassDecl) : Bool :=
  !c.isInterface && (endsWith c.name "Job" || endsWith c.name "Tasklet")

def classEntryPoints (c : ClassDecl) : List EntryPoint :=
  if c.name == "" then []
  else if endsWith c.name "Controller" then
    (c.methods.filter fun m => isHandler c.name m.name).map fun m =>
      .ofMethod "HANDLER" "" c.name m.name c.filePath
  else if isBatch c then
    (c.methods.filter fun m => m.name == "execute" || m.name == "run").map fun m =>
      .ofMethod "BATCH" c.name c.name m.name c.filePath
  else []

end Naming

def naming : Classifier where
  name := "naming"
  layerOf className _ _ := Naming.layer className
  entryPoints code := code.classes.flatMap Naming.classEntryPoints

end CallTrace.Classifier
