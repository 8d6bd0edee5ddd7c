import Marshal.Draft.Call
import Marshal.Json.Value

/-!
A JSON document in the making: the containers that are open, the innermost first, and the root once
it is there. Ending a container that is not the innermost fails, and the innermost is lost.
-/

namespace Marshal

/-- A container that has been started, and the key that it was started under. -/
inductive Frame
  | object (key : Option String) (members : List (String × Json))
  | array (key : Option String) (items : List Json)

structure JsonDraft where
  stack : List Frame := []
  root : Option Json := none

namespace Frame

def keyText : Option String → String
  | none => "None"
  | some k => "Some(" ++ Text.quote k ++ ")"

/-- How a message shows a container. -/
def debugText : Frame → String
  | object key members =>
    "Object \x7b key: " ++ keyText key ++ ", members: \x7b" ++
      ", ".intercalate (Json.debugMembers members) ++ "\x7d \x7d"
  | array key items =>
    "Array \x7b key: " ++ keyText key ++ ", items: [" ++
      ", ".intercalate (Json.debugItems items) ++ "] \x7d"

def debugTop : Option Frame → String
  | none => "None"
  | some f => "Some(" ++ f.debugText ++ ")"

end Frame

namespace Json

/-- The number that a double is written as; null unless it is finite. -/
def ofDouble (x : Double) : Json :=
  if x.isFinite then .number (x.text .exponential) else .null

/-- The double that the shortest text of a single spells. -/
def widen (x : Single) : Double :=
  (Double.ofChars? (x.text .plain).toList).getD (.ofSingle x)

end Json

namespace JsonDraft

/-- Puts a value into the innermost container, or makes it the root. -/
def put (key : Option String) (v : Json) (d : JsonDraft) : Result Unit × JsonDraft :=
  match d.stack with
  | .object k members :: rest =>
    match key with
    | some name => (.ok (), { d with stack := .object k (Members.put members name v) :: rest })
    | none => (.error (.unsupported .unnamedMember), d)
  | .array k items :: rest => (.ok (), { d with stack := .array k (items ++ [v]) :: rest })
  | [] =>
    match d.root with
    | some _ => (.error (.unsupported .secondRoot), d)
    | none => (.ok (), { d with root := some v })

def putSome (key : Option String) (v : Option Json) (d : JsonDraft) : Result Unit × JsonDraft :=
  match v with
  | some v => d.put key v
  | none => (.ok (), d)

def unmatchedEnd (what : Container) (d : JsonDraft) : Result Unit × JsonDraft :=
  (.error (.unsupported (.unmatchedEnd what (Frame.debugTop d.stack.head?))),
    { d with stack := d.stack.tail })

def endObject (d : JsonDraft) : Result Unit × JsonDraft :=
  match d.stack with
  | .object key members :: rest => { d with stack := rest }.put key (.object members)
  | _ => d.unmatchedEnd .object

def endCollection (d : JsonDraft) : Result Unit × JsonDraft :=
  match d.stack with
  | .array key items :: rest => { d with stack := rest }.put key (.array items)
  | _ => d.unmatchedEnd .collection

def call (c : Call) (d : JsonDraft) : Result Unit × JsonDraft :=
  match c with
  | .string key v => d.putSome key (v.map .string)
  | .bool key v => d.putSome key (v.map .bool)
  | .integer key v => d.putSome key (v.map fun n => .number (intText n.toInt))
  | .single key v => d.putSome key (v.map fun x => Json.ofDouble (Json.widen x))
  | .double key v => d.putSome key (v.map Json.ofDouble)
  | .decimal key v => d.putSome key (v.map fun x => .number x.normalize.text)
  | .bytes key v => d.putSome key (v.map fun b => .string (Base64.encode b))
  | .null key => d.put key .null
  | .startObject key _ => (.ok (), { d with stack := .object key [] :: d.stack })
  | .startCollection key => (.ok (), { d with stack := .array key [] :: d.stack })
  | .endObject => d.endObject
  | .endCollection => d.endCollection

/-- A field that the innermost object has already. -/
def shadows (d : JsonDraft) (key : String) : Bool :=
  match d.stack with
  | .object _ members :: _ => Members.has members key
  | _ => false

def finish (d : JsonDraft) : Result Bytes × JsonDraft :=
  match d.stack with
  | [] =>
    (.ok (match d.root with
      | some v => Bytes.ofString v.text
      | none => []), { d with root := none })
  | _ => (.error (.format (.openContainers d.stack.length)), d)

instance : Draft JsonDraft where
  call := call
  shadows := shadows
  finish := finish

end JsonDraft

end Marshal
