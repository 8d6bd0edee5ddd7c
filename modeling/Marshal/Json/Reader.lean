import Marshal.Json.Token

/-!
Reading a JSON text: a machine over its tokens that keeps the containers which are still open. A
repeated member name keeps its first place and takes the last value. An object that starts with the
reserved name stands for the number that its only member spells.
-/

namespace Marshal.Json

/-- This many containers within each other are too many, unless a reader is given another limit. -/
def nestingLimit : Nat := 128

/-- Reserved for the only member of an object that stands for a number. Only the first name of an
object is looked at; later on it is a name like any other. -/
def numberName : String := "$serde_json::private::Number"

/-- A container that is not finished. -/
inductive Open
  /-- The items so far, the last first. -/
  | array (items : List Json)
  /-- The members so far, and the name that the next value goes under. -/
  | object (members : Members Json) (key : String)

/-- What may come next, with the open containers, the innermost first. -/
inductive Reader
  | value (stack : List Open)
  /-- A value or the end of an array that has just begun. -/
  | item (stack : List Open)
  | name (members : Members Json) (stack : List Open)
  /-- A name or the end of an object that has just begun. -/
  | firstName (stack : List Open)
  | colon (stack : List Open)
  /-- The colon, the text and the end of an object that stands for a number. -/
  | numberColon (stack : List Open)
  | numberText (stack : List Open)
  | numberEnd (v : Json) (stack : List Open)
  /-- A comma or the end of the innermost container. -/
  | more (inner : Open) (stack : List Open)
  | finished (v : Json)

namespace Reader

/-- Puts a whole value where it belongs. -/
def complete (v : Json) : List Open → Reader
  | [] => .finished v
  | .array items :: stack => .more (.array (v :: items)) stack
  | .object members key :: stack => .more (.object (members.put key v) key) stack

def valueToken? (limit : Nat) (stack : List Open) : Token → Option Reader
  | .scalar v => some (complete v stack)
  | .beginArray =>
    if stack.length + 1 < limit then some (.item (.array [] :: stack)) else none
  | .beginObject =>
    if stack.length + 1 < limit then some (.firstName stack) else none
  | _ => none

def nameToken? (members : Members Json) (stack : List Open) : Token → Option Reader
  | .scalar (.string key) => some (.colon (.object members key :: stack))
  | _ => none

/-- The first name of an object, or its end. -/
def firstNameToken? (stack : List Open) : Token → Option Reader
  | .endObject => some (complete (.object []) stack)
  | .scalar (.string key) =>
    some (if key = numberName then .numberColon stack else .colon (.object [] key :: stack))
  | _ => none

/-- The number that a text spells, without blanks around it. -/
def numberToken? (stack : List Open) : Token → Option Reader
  | .scalar (.string text) =>
    (Token.number? text.toList).map fun t => .numberEnd (.number (String.ofList t)) stack
  | _ => none

def next? (limit : Nat) : Reader → Token → Option Reader
  | .value stack, t => valueToken? limit stack t
  | .item (.array [] :: stack), .endArray => some (complete (.array []) stack)
  | .item stack, t => valueToken? limit stack t
  | .name members stack, t => nameToken? members stack t
  | .firstName stack, t => firstNameToken? stack t
  | .numberColon stack, .colon => some (.numberText stack)
  | .numberText stack, t => numberToken? stack t
  | .numberEnd v stack, .endObject => some (complete v stack)
  | .colon stack, .colon => some (.value stack)
  | .more (.array items) stack, .comma => some (.value (.array items :: stack))
  | .more (.array items) stack, .endArray => some (complete (.array items.reverse) stack)
  | .more (.object members _) stack, .comma => some (.name members stack)
  | .more (.object members _) stack, .endObject => some (complete (.object members) stack)
  | _, _ => none

def value? : Reader → Option Json
  | .finished v => some v
  | _ => none

end Reader

def ofTokens? (limit : Nat) (ts : List Token) : Option Json :=
  (ts.foldlM (Reader.next? limit) (.value [])).bind Reader.value?

def ofChars? (cs : List Char) (limit : Nat := nestingLimit) : Option Json :=
  (tokens? cs).bind (ofTokens? limit)

def ofString? (s : String) : Option Json :=
  ofChars? s.toList

end Marshal.Json
