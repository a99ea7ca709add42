import CallTrace.Settings
import CallTrace.Text.Number

/-!
Command-line arguments. Options may stand before or after the command; an option is given once on
either side, and the side of the command counts.
-/

namespace CallTrace.CommandLine

inductive Command where
  | summary
  | entryPoints
  | tree (signature : String) (depth : Option Nat)
  | trees (depth : Option Nat)
  | cycles
  | relations
  | snapshot (out : String) (depth : Option Nat)
  | serve (port : Option Nat) (host : String)
  deriving DecidableEq, Repr

structure Invocation where
  input : String
  snapshotInput : Bool := false
  settingsPath : Option String := none
  classifier : Option ClassifierChoice := none
  includeInterfaceEntryPoints : Bool := false
  json : Bool := false
  verbose : Bool := false
  command : Command
  deriving DecidableEq, Repr

/-- What ends the reading of arguments early. -/
inductive Stop where
  | usage
  | version
  | help
  deriving DecidableEq, Repr

inductive Flag where
  | snapshotInput
  | config
  | classifier
  | includeInterfaceEntryPoints
  | json
  | verbose
  | version
  | help
  | maxDepth
  | port
  | host
  deriving DecidableEq, Repr

namespace Flag

def long : Flag → String
  | .snapshotInput => "snapshot-input"
  | .config => "config"
  | .classifier => "classifier"
  | .includeInterfaceEntryPoints => "include-interface-entry-points"
  | .json => "json"
  | .verbose => "verbose"
  | .version => "version"
  | .help => "help"
  | .maxDepth => "max-depth"
  | .port => "port"
  | .host => "host"

def short? : Flag → Option Char
  | .config => some 'c'
  | .verbose => some 'v'
  | .version => some 'V'
  | .help => some 'h'
  | .maxDepth => some 'd'
  | .port => some 'p'
  | _ => none

def takesValue : Flag → Bool
  | .config | .classifier | .maxDepth | .port | .host => true
  | _ => false

def allows (flag : Flag) (value : String) : Bool :=
  match flag with
  | .config => value != ""
  | .classifier => (ClassifierChoice.ofName? value).isSome
  | .maxDepth => (Text.parseNatBelow? depthBound value.toList).isSome
  | .port => (Text.parseNatBelow? Settings.portBound value.toList).isSome
  | _ => true

def shared : List Flag :=
  [snapshotInput, config, classifier, includeInterfaceEntryPoints, json, verbose, help]

end Flag

inductive CommandName where
  | summary
  | entryPoints
  | tree
  | trees
  | cycles
  | relations
  | snapshot
  | serve
  deriving DecidableEq, Repr

namespace CommandName

def name : CommandName → String
  | .summary => "summary"
  | .entryPoints => "entry-points"
  | .tree => "tree"
  | .trees => "trees"
  | .cycles => "cycles"
  | .relations => "relations"
  | .snapshot => "snapshot"
  | .serve => "serve"

def all : List CommandName :=
  [summary, entryPoints, tree, trees, cycles, relations, snapshot, serve]

def ofName? (name : String) : Option CommandName :=
  all.find? fun command => command.name == name

def flags : CommandName → List Flag
  | .tree | .trees | .snapshot => Flag.shared ++ [.maxDepth]
  | .serve => Flag.shared ++ [.port, .host]
  | _ => Flag.shared

/-- A command takes at most one argument of its own; a path must not be empty. -/
def allowsArgument : CommandName → String → Bool
  | .tree, _ => true
  | .snapshot, value => value != ""
  | _, _ => false

end CommandName

structure Side where
  options : List (Flag × String) := []
  argument : Option String := none
  deriving DecidableEq, Repr

/-- What one side may hold: its options, and which argument of its own. -/
structure Grammar where
  flags : List Flag
  allowsArgument : String → Bool

namespace Side

def has (side : Side) (flag : Flag) : Bool :=
  side.options.any fun option => option.1 == flag

/-- Takes an option, which must be new and have a value it can have. -/
def addOption (side : Side) (flag : Flag) (value : String) : Except Stop Side :=
  match flag with
  | .version => .error .version
  | .help => .error .help
  | flag =>
      if side.has flag || !flag.allows value then .error .usage
      else .ok { side with options := (flag, value) :: side.options }

def addArgument (grammar : Grammar) (side : Side) (value : String) : Except Stop Side :=
  if side.argument.isSome || !grammar.allowsArgument value then .error .usage
  else .ok { side with argument := some value }

/-- Takes a cluster of short options. Gives the option that still waits for its value, if any. -/
def addShorts (grammar : Grammar) : Side → List Char → Except Stop (Side × Option Flag)
  | side, [] => .ok (side, none)
  | side, c :: rest =>
      match grammar.flags.find? fun flag => flag.short? == some c with
      | none => .error .usage
      | some flag =>
          if flag.takesValue then
            match rest with
            | [] => .ok (side, some flag)
            | '=' :: value => (side.addOption flag (String.ofList value)).map (·, none)
            | value => (side.addOption flag (String.ofList value)).map (·, none)
          else do
            let side ← side.addOption flag ""
            side.addShorts grammar rest

def addLong (grammar : Grammar) (side : Side) (body : List Char) :
    Except Stop (Side × Option Flag) :=
  let name := String.ofList (body.takeWhile (· != '='))
  match grammar.flags.find? fun flag => flag.long == name, body.dropWhile (· != '=') with
  | none, _ => .error .usage
  | some flag, [] =>
      if flag.takesValue then .ok (side, some flag)
      else (side.addOption flag "").map (·, none)
  | some flag, _ :: value =>
      if flag.takesValue then (side.addOption flag (String.ofList value)).map (·, none)
      else .error .usage

end Side

/-- The text looks like an option and so is never the value of one. -/
def isOptionLike : List Char → Bool
  | '-' :: _ :: _ => true
  | _ => false

/-- Reads one side up to a command, if there is one to come. Gives the arguments after it too.
`waiting` is an option whose value comes next; after `--` nothing is an option or a command. -/
def readSide (grammar : Grammar) (command? : String → Option CommandName) :
    (plain : Bool) → (waiting : Option Flag) → Side → List String →
      Except Stop (Side × Option (CommandName × List String))
  | _, none, side, [] => .ok (side, none)
  | _, some _, _, [] => .error .usage
  | plain, some flag, side, arg :: rest =>
      if isOptionLike arg.toList then .error .usage
      else do
        let side ← side.addOption flag arg
        readSide grammar command? plain none side rest
  | true, none, side, arg :: rest => do
      let side ← side.addArgument grammar arg
      readSide grammar command? true none side rest
  | false, none, side, arg :: rest =>
      match command? arg, arg.toList with
      | some command, _ => .ok (side, some (command, rest))
      | none, ['-', '-'] => readSide grammar command? true none side rest
      | none, '-' :: '-' :: body => do
          let (side, waiting) ← side.addLong grammar body
          readSide grammar command? false waiting side rest
      | none, '-' :: c :: body => do
          let (side, waiting) ← side.addShorts grammar (c :: body)
          readSide grammar command? false waiting side rest
      | none, _ => do
          let side ← side.addArgument grammar arg
          readSide grammar command? false none side rest

def frontGrammar : Grammar where
  flags := Flag.shared ++ [.version]
  allowsArgument value := value != ""

def commandGrammar (command : CommandName) : Grammar where
  flags := command.flags
  allowsArgument := command.allowsArgument

/-- The value of an option: after the command, or else before it. -/
def optionOf (front back : Side) (flag : Flag) : Option String :=
  (back.options.lookup flag).or (front.options.lookup flag)

def depthOf (side : Side) : Option Nat :=
  (side.options.lookup .maxDepth).bind fun value => Text.parseNatBelow? depthBound value.toList

def portOf (side : Side) : Option Nat :=
  (side.options.lookup .port).bind fun value =>
    Text.parseNatBelow? Settings.portBound value.toList

/-- The command with what stands after it; nothing if its argument is missing. -/
def commandOf? (back : Side) : CommandName → Option Command
  | .summary => some .summary
  | .entryPoints => some .entryPoints
  | .cycles => some .cycles
  | .relations => some .relations
  | .tree => back.argument.map fun signature => .tree signature (depthOf back)
  | .trees => some (.trees (depthOf back))
  | .snapshot => back.argument.map fun out => .snapshot out (depthOf back)
  | .serve => some (.serve (portOf back) ((back.options.lookup .host).getD "127.0.0.1"))

def Invocation.parse (args : List String) : Except Stop Invocation := do
  let (front, rest) ← readSide frontGrammar CommandName.ofName? false none {} args
  let some (name, rest) := rest | .error .usage
  let (back, _) ← readSide (commandGrammar name) (fun _ => none) false none {} rest
  let option := optionOf front back
  let some input := front.argument | .error .usage
  let some command := commandOf? back name | .error .usage
  return {
    input
    snapshotInput := (option .snapshotInput).isSome
    settingsPath := option .config
    classifier := (option .classifier).bind ClassifierChoice.ofName?
    includeInterfaceEntryPoints := (option .includeInterfaceEntryPoints).isSome
    json := (option .json).isSome
    verbose := (option .verbose).isSome
    command }

end CallTrace.CommandLine
