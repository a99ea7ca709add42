import CallTrace.Engine.Report
import CallTrace.Http.MediaType
import CallTrace.Http.Query

namespace CallTrace.Http

open Json

structure Request where
  method : String := "GET"
  /-- Path, and a query after a question mark. -/
  target : String
  contentType : Option String := none
  body : ByteArray := .empty

structure Response where
  status : Nat
  body : Option Value := none

inductive Route where
  | health
  | summary
  | entryPoints
  | tree
  | trees
  | cycles
  | relations
  | snapshot
  | reload
  deriving DecidableEq, Repr

namespace Route

def path : Route → String
  | .health => "/health"
  | .summary => "/summary"
  | .entryPoints => "/entry-points"
  | .tree => "/tree"
  | .trees => "/trees"
  | .cycles => "/cycles"
  | .relations => "/relations"
  | .snapshot => "/snapshot"
  | .reload => "/reload"

def all : List Route :=
  [health, summary, entryPoints, tree, trees, cycles, relations, snapshot, reload]

/-- Paths match exactly. -/
def ofPath? (path : String) : Option Route :=
  all.find? fun route => route.path == path

/-- Requests with a body are posted, the others are read. -/
def accepts (route : Route) (method : String) : Bool :=
  match route with
  | .tree | .reload => method == "POST"
  | _ => method == "GET" || method == "HEAD"

end Route

namespace Request

def path (request : Request) : String :=
  String.ofList (request.target.toList.takeWhile fun c => c != '?' && c != '#')

def query (request : Request) : String :=
  let rest := (request.target.toList.takeWhile (· != '#')).dropWhile (· != '?')
  String.ofList (rest.drop 1)

end Request

def errorStatus : EngineError → Nat
  | .query (.unknownSignature _) => 404
  | .query (.depthTooGreat _) => 400
  | _ => 500

def ofResult : Except EngineError Value → Response
  | .ok value => ⟨200, some value⟩
  | .error e => ⟨errorStatus e, some (.obj [("error", .str e.message)])⟩

/-- A request for a tree: the content type must be JSON, then the body must be a request. -/
def treeResponse (engine : Engine) (request : Request) : Response :=
  if !request.contentType.any isJson then ⟨415, none⟩
  else
    match (Document.ofBytes request.body).decode TreeRequest.decode with
    | .error .text => ⟨400, none⟩
    | .error .shape => ⟨422, none⟩
    | .ok wanted => ofResult (engine.treeReport wanted.signature wanted.maxDepth)

def withDepth (request : Request) (f : Option Nat → Except EngineError Value) : Response :=
  match depthOf? request.query with
  | none => ⟨400, none⟩
  | some depth => ofResult (f depth)

def handle (files : Files) (engine : Engine) (request : Request) : Route → Response × Engine
  | .health => (⟨200, some engine.health⟩, engine)
  | .summary => (⟨200, some engine.summaryReport⟩, engine)
  | .entryPoints => (⟨200, some engine.entryPointsReport⟩, engine)
  | .cycles => (⟨200, some engine.cyclesReport⟩, engine)
  | .relations => (⟨200, some engine.relationsReport⟩, engine)
  | .tree => (treeResponse engine request, engine)
  | .trees => (withDepth request engine.treesReport, engine)
  | .snapshot => (withDepth request engine.snapshotReport, engine)
  | .reload =>
      match engine.reload files with
      | .ok engine => (⟨200, some engine.health⟩, engine)
      | .error e => (ofResult (.error e), engine)

/-- Answers a request; a reload may change the engine. Any path may be asked for its options, and
the answer to a request for the head alone has no body. -/
def respond (files : Files) (engine : Engine) (request : Request) : Response × Engine :=
  if request.method == "OPTIONS" then (⟨200, none⟩, engine)
  else
    match Route.ofPath? request.path with
    | none => (⟨404, none⟩, engine)
    | some route =>
        if route.accepts request.method then
          let (response, engine) := handle files engine request route
          (if request.method == "HEAD" then { response with body := none } else response, engine)
        else (⟨405, none⟩, engine)

end CallTrace.Http
