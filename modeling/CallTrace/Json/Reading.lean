import CallTrace.Json.Token

/-!
A JSON text as far as it can be read. Where the text breaks off or goes wrong, the containers
open at that point keep what they hold and are marked as not closed, so that a decoder which
walks a reading in order meets the faults of a text in the order they stand in it.
-/

namespace CallTrace.Json

inductive Reading where
  | null
  | bool (b : Bool)
  | num (lexeme : List Char)
  | str (content : Option String)
  | arr (items : List Reading) (closed : Bool)
  | obj (fields : List (Option String × Reading)) (closed : Bool)
  /-- A value was expected here and none could be read. -/
  | broken
  deriving Inhabited, Repr

namespace Reading

/-- The value was read to its end without a fault: a container is closed only if all it holds was
read that way. Strings need not be decodable. -/
def isWhole : Reading → Bool
  | .arr _ closed => closed
  | .obj _ closed => closed
  | .broken => false
  | _ => true

end Reading

inductive ArrayPhase where
  | first
  | item
  | divider
  deriving DecidableEq, Repr

inductive ObjectPhase where
  | firstKey
  | key
  | colon (key : Option String)
  | value (key : Option String)
  | divider
  deriving DecidableEq, Repr

/-- A container that is open, with what it holds so far, last first. -/
inductive Frame where
  | arr (items : List Reading) (phase : ArrayPhase)
  | obj (fields : List (Option String × Reading)) (phase : ObjectPhase)

namespace Frame

def awaitsValue : Frame → Bool
  | .arr _ .divider => false
  | .arr _ _ => true
  | .obj _ (.value _) => true
  | .obj _ _ => false

def take (item : Reading) : Frame → Frame
  | .arr items _ => .arr (item :: items) .divider
  | .obj fields (.value key) => .obj ((key, item) :: fields) .divider
  | frame => frame

/-- The container as it stands when the text goes wrong with nothing inside it open. -/
def abandon : Frame → Reading
  | .arr items _ => .arr items.reverse false
  | .obj fields (.colon key) => .obj ((key, .broken) :: fields).reverse false
  | .obj fields (.value key) => .obj ((key, .broken) :: fields).reverse false
  | .obj fields _ => .obj fields.reverse false

end Frame

/-- A text read up to some token. -/
inductive Progress where
  /-- The open containers, innermost first; with none, the value has not begun. -/
  | within (frames : List Frame)
  /-- The value is complete; `more` tells that something follows it. -/
  | complete (value : Reading) (more : Bool)
  | failed (value : Reading)

namespace Progress

def start : Progress := .within []

/-- What was read of the open containers when the text goes wrong. -/
def abandonAll : List Frame → Reading
  | [] => .broken
  | frame :: frames =>
      frames.foldl (fun inner outer => (outer.take inner).abandon) frame.abandon

def give (item : Reading) : List Frame → Progress
  | [] => .complete item false
  | frame :: frames =>
      if frame.awaitsValue then .within (frame.take item :: frames)
      else .failed (abandonAll (frame :: frames))

/-- Opens a container where a value is awaited. -/
def enter (container : Frame) (frames : List Frame) : Progress :=
  match frames with
  | [] => .within [container]
  | frame :: rest =>
      if frame.awaitsValue then .within (container :: frame :: rest)
      else .failed (abandonAll (frame :: rest))

def step (progress : Progress) (token : Token) : Progress :=
  match progress with
  | .failed value => .failed value
  | .complete value _ => .complete value true
  | .within frames =>
      match token with
      | .null => give .null frames
      | .bool b => give (.bool b) frames
      | .num lexeme => give (.num lexeme) frames
      | .str content =>
          match frames with
          | .obj fields .firstKey :: rest => .within (.obj fields (.colon content) :: rest)
          | .obj fields .key :: rest => .within (.obj fields (.colon content) :: rest)
          | frames => give (.str content) frames
      | .openBracket => enter (.arr [] .first) frames
      | .openBrace => enter (.obj [] .firstKey) frames
      | .closeBracket =>
          match frames with
          | .arr items .first :: rest => give (.arr items.reverse true) rest
          | .arr items .divider :: rest => give (.arr items.reverse true) rest
          | frames => .failed (abandonAll frames)
      | .closeBrace =>
          match frames with
          | .obj fields .firstKey :: rest => give (.obj fields.reverse true) rest
          | .obj fields .divider :: rest => give (.obj fields.reverse true) rest
          | frames => .failed (abandonAll frames)
      | .colon =>
          match frames with
          | .obj fields (.colon key) :: rest => .within (.obj fields (.value key) :: rest)
          | frames => .failed (abandonAll frames)
      | .comma =>
          match frames with
          | .arr items .divider :: rest => .within (.arr items .item :: rest)
          | .obj fields .divider :: rest => .within (.obj fields .key :: rest)
          | frames => .failed (abandonAll frames)
      | .bad => .failed (abandonAll frames)

end Progress

/-- A text read to its end: one value, and whether anything follows it. -/
structure Document where
  value : Reading
  more : Bool

namespace Document

def ofTokens (tokens : List Token) : Document :=
  match tokens.foldl Progress.step .start with
  | .within frames => ⟨Progress.abandonAll frames, false⟩
  | .complete value more => ⟨value, more⟩
  | .failed value => ⟨value, false⟩

def ofString (text : String) : Document :=
  ofTokens (Token.scan (Glyph.ofString text))

def ofBytes (bytes : ByteArray) : Document :=
  ofTokens (Token.scan (Glyph.ofBytes bytes))

end Document

end CallTrace.Json
