import Shading.Json.Token

/-!
# Reading JSON

A text is read by a machine that takes one token after the other. Its state is what may come next,
together with the lists and objects that are still open, the innermost first. A text is a JSON value
if the machine ends with one complete value and nothing open. -/

namespace Shading.Json

/-- A list or an object that is still open, while a value in it is being read. What was read before
stands in reverse. -/
inductive Frame where
  | list (items : List Json)
  | object (members : List (String × Json)) (readable : Bool) (key : String)

/-- What the machine has read and what it waits for. -/
inductive ReadState where
  /-- A value must come. -/
  | value (outer : List Frame)
  /-- A list has just been opened: a value or its end. -/
  | listStart (outer : List Frame)
  /-- An object has just been opened: a key or its end. -/
  | objectStart (outer : List Frame)
  /-- A key must come. -/
  | key (members : List (String × Json)) (readable : Bool) (outer : List Frame)
  /-- A colon must come. -/
  | colon (members : List (String × Json)) (readable : Bool) (key : String) (outer : List Frame)
  /-- A value is complete: a comma, the end of what is open, or the end of the text. -/
  | after (v : Json) (outer : List Frame)

namespace ReadState

/-- The value of a token that is one by itself. -/
def atom? : Token → Option Json
  | .null => some .null
  | .bool b => some (.bool b)
  | .num n => some (.num n)
  | .str (some cs) => some (.str (String.ofList cs))
  | .str none => some .unreadable
  | _ => none

/-- A value begins. -/
def startValue (outer : List Frame) : Token → Option ReadState
  | .openList => some (listStart outer)
  | .openObject => some (objectStart outer)
  | t => (atom? t).map (after · outer)

/-- A key is read. A key without a value makes its object unreadable. -/
def startMember (members : List (String × Json)) (readable : Bool) (outer : List Frame) :
    Token → Option ReadState
  | .str (some cs) => some (colon members readable (String.ofList cs) outer)
  | .str none => some (colon members false "" outer)
  | _ => none

def object (members : List (String × Json)) (readable : Bool) : Json :=
  if readable then .obj members.reverse else .unreadable

/-- One step of the machine. -/
def step (state : ReadState) (t : Token) : Option ReadState :=
  match state, t with
  | listStart outer, .closeList => some (after (.arr []) outer)
  | listStart outer, t => startValue (.list [] :: outer) t
  | value outer, t => startValue outer t
  | objectStart outer, .closeObject => some (after (.obj []) outer)
  | objectStart outer, t => startMember [] true outer t
  | key members readable outer, t => startMember members readable outer t
  | colon members readable k outer, .colon => some (value (.object members readable k :: outer))
  | after v (.list items :: outer), .comma => some (value (.list (v :: items) :: outer))
  | after v (.list items :: outer), .closeList => some (after (.arr (v :: items).reverse) outer)
  | after v (.object members readable k :: outer), .comma =>
    some (key ((k, v) :: members) readable outer)
  | after v (.object members readable k :: outer), .closeObject =>
    some (after (object ((k, v) :: members) readable) outer)
  | _, _ => none

/-- The value that has been read when the text ends. -/
def result? : ReadState → Option Json
  | after v [] => some v
  | _ => none

end ReadState

/-- The value that a list of tokens spells. -/
def ofTokens? (ts : List Token) : Option Json :=
  (ts.foldlM ReadState.step (.value [])).bind ReadState.result?

/-- The value that a text spells. -/
def parse? (s : String) : Option Json := (Token.ofText? s.toList).bind ofTokens?

end Shading.Json
