import Marshal.Json.Pointer
import Marshal.Json.Reader
import Marshal.Kind
import Marshal.Untyped

/-!
A place in a JSON document, and typed reads of the value there. No place is more than `maxDepth`
steps from the root.
-/

namespace Marshal

structure JsonNode where
  value : Json
  /-- The names and indices on the way from the root. -/
  steps : List String := []
  maxDepth : Nat := 64

/-- What a mismatch calls a value. -/
def Json.found : Json → Found
  | .null => .null
  | .bool _ => .boolean
  | .number _ => .number
  | .string _ => .string
  | .array _ => .array
  | .object _ => .object

namespace Json

/-- The integer that the text of a number spells, if it fits. -/
def integer? (text : String) : Option Int64 :=
  readInt64? text.toList

/-- The double nearest to a number, if that is finite. -/
def double? (text : String) : Option Double :=
  (Double.ofChars? text.toList).filter Double.isFinite

def numberToUntyped (text : String) : Untyped :=
  match integer? text, double? text with
  | some n, _ => .integer n
  | none, some x => .double x
  | none, none => .null

mutual

def toUntyped : Json → Untyped
  | null => .null
  | bool b => .bool b
  | number t => numberToUntyped t
  | string s => .string s
  | array items => .array (itemsToUntyped items)
  | object members => .object (membersToUntyped members)

def itemsToUntyped : List Json → List Untyped
  | [] => []
  | v :: vs => toUntyped v :: itemsToUntyped vs

def membersToUntyped : List (String × Json) → List (String × Untyped)
  | [] => []
  | (k, v) :: ms => (k, toUntyped v) :: membersToUntyped ms

end

end Json

namespace JsonNode

def path (n : JsonNode) : String :=
  Json.Pointer.text n.steps

/-- The node one step further down, unless that is too deep. -/
def child (n : JsonNode) (step : String) (value : Json) : Result JsonNode :=
  let steps := n.steps ++ [step]
  if n.maxDepth < steps.length then
    .error (.parse (Json.Pointer.text steps) (.tooDeep n.maxDepth))
  else .ok { n with value, steps }

def mismatch {α : Type} (n : JsonNode) (wanted : Wanted) : Result α :=
  .error (.parse n.path (.expected wanted n.value.found))

/-- The text of a scalar; numbers and booleans have their JSON text. -/
def text? (n : JsonNode) : Result (Option String) :=
  match n.value with
  | .null => .ok none
  | .string s => .ok (some s)
  | .bool b => .ok (some (boolText b))
  | .number t => .ok (some t)
  | _ => n.mismatch .string

/-- A number that is written as an integer, or a string that spells one. -/
def integer? (n : JsonNode) (wanted : Wanted) : Result (Option Int64) :=
  match n.value with
  | .null => .ok none
  | .number t =>
    match Json.integer? t with
    | some i => .ok (some i)
    | none => n.mismatch wanted
  | .string s =>
    match readInt64? (Text.trimChars s.toList) with
    | some i => .ok (some i)
    | none => n.mismatch wanted
  | _ => n.mismatch wanted

/-- An integer of fewer bits. -/
def narrow? {α : Type} (n : JsonNode) (wanted : Wanted) (fit? : Int → Option α) :
    Result (Option α) := do
  match ← n.integer? wanted with
  | none => return none
  | some i =>
    match fit? i.toInt with
    | some v => return some v
    | none => n.mismatch wanted

def double? (n : JsonNode) : Result (Option Double) :=
  match n.value with
  | .null => .ok none
  | .number t =>
    match Json.double? t with
    | some x => .ok (some x)
    | none => n.mismatch .number
  | .string s =>
    match Double.ofChars? (Text.trimChars s.toList) with
    | some x => .ok (some x)
    | none => n.mismatch .number
  | _ => n.mismatch .number

/-- A boolean, or a string that spells one without blanks around it. -/
def bool? (n : JsonNode) : Result (Option Bool) :=
  match n.value with
  | .null => .ok none
  | .bool b => .ok (some b)
  | .string s =>
    match Kind.readBool? s with
    | some b => .ok (some b)
    | none => n.mismatch .boolean
  | _ => n.mismatch .boolean

def decimal? (n : JsonNode) : Result (Option Decimal) :=
  match n.value with
  | .null => .ok none
  | .number t => (Kind.decimal.ofText n.path t).map some
  | .string s => (Kind.decimal.ofText n.path s).map some
  | _ => n.mismatch .decimal

/-- A scalar of kind `k`; null is absent. -/
def read? (n : JsonNode) : (k : Kind) → Result (Option k.Carrier)
  | .string => n.text?
  | .bool => n.bool?
  | .byte => n.narrow? .unsignedByte toUInt8?
  | .sbyte => n.narrow? .signedByte toInt8?
  | .int => n.narrow? .integer32 toInt32?
  | .long => n.integer? .integer64
  | .float => do return (← n.double?).map Double.toSingle
  | .double => n.double?
  | .decimal => n.decimal?
  | k => do k.ofText? n.path (← n.text?)

def untyped (n : JsonNode) : Untyped :=
  n.value.toUntyped

/-- The member of that name, if this is an object that has one. -/
def child? (n : JsonNode) (key : String) : Result (Option JsonNode) :=
  match n.value with
  | .object members =>
    match Members.get? members key with
    | some v => (n.child key v).map some
    | none => .ok none
  | _ => .ok none

def elements? (n : JsonNode) : Result (Option (List JsonNode)) :=
  match n.value with
  | .null => .ok none
  | .array items => (items.zipIdx.mapM fun (v, i) => n.child (natText i) v).map some
  | _ => n.mismatch .array

def members? (n : JsonNode) : Result (Option (Members JsonNode)) :=
  match n.value with
  | .null => .ok none
  | .object members =>
    (members.mapM fun (k, v) => (n.child k v).map fun c => (k, c)).map some
  | _ => n.mismatch .object

end JsonNode

end Marshal
