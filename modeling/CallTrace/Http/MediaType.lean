namespace CallTrace.Http

def isTokenChar (c : Char) : Bool :=
  c.isAlphanum || "!#$%&'*+-.^_`|~".toList.contains c

/-- Characters a quoted parameter may hold. -/
def isQuotable (c : Char) : Bool :=
  0x20 ≤ c.toNat && c.toNat != 0x7F

inductive ParameterState where
  /-- Before a name: blanks may come. -/
  | start
  | name
  | valueStart
  | value
  | quotedStart
  | quoted
  /-- After a quoted value: blanks may come, then a semicolon. -/
  | done
  deriving DecidableEq, Repr

def ParameterState.next : ParameterState → Char → Option ParameterState
  | .start, c => if c == ' ' then some .start else if isTokenChar c then some .name else none
  | .name, c => if c == '=' then some .valueStart else if isTokenChar c then some .name else none
  | .valueStart, c =>
      if c == '"' then some .quotedStart else if isTokenChar c then some .value else none
  | .value, c => if c == ';' then some .start else if isTokenChar c then some .value else none
  | .quotedStart, c => if isQuotable c then some .quoted else none
  | .quoted, c => if c == '"' then some .done else if isQuotable c then some .quoted else none
  | .done, c => if c == ';' then some .start else if c == ' ' then some .done else none

def ParameterState.isFinal : ParameterState → Bool
  | .start | .valueStart | .value | .done => true
  | .name | .quotedStart | .quoted => false

def areParameters (cs : List Char) : Bool :=
  match cs.foldlM ParameterState.next .start with
  | some state => state.isFinal
  | none => false

/-- The part of a subtype before its last plus sign, and the part after it, if there is one. A
plus sign at the very start does not count. -/
def splitSuffix (subtype : List Char) : List Char × Option (List Char) :=
  match subtype.reverse.dropWhile (· != '+') with
  | _ :: c :: before => ((c :: before).reverse, some (subtype.reverse.takeWhile (· != '+')).reverse)
  | _ => (subtype, none)

/-- The content type is one of JSON: `application/json`, or an application type that ends in
`+json`, with any parameters and in any case. -/
def isJson (contentType : String) : Bool :=
  let cs := contentType.toList.map Char.toLower
  let type := cs.takeWhile isTokenChar
  match cs.dropWhile isTokenChar with
  | '/' :: rest =>
      let subtype := rest.takeWhile isTokenChar
      let (name, suffix) := splitSuffix subtype
      let parametersOk :=
        match rest.dropWhile isTokenChar with
        | [] => true
        | ';' :: parameters => !subtype.isEmpty && areParameters parameters
        | ' ' :: parameters => !subtype.isEmpty && areParameters parameters
        | _ => false
      type == "application".toList && parametersOk
        && (name == "json".toList || suffix == some "json".toList)
  | _ => false

end CallTrace.Http
