import Marshal.Kind
import Marshal.Untyped
import Marshal.Number.Shortest

/-!
The calls that put values into a payload, and the payloads in the making that take them. A key is
missing for the root and for the elements of a collection; an absent value is a call as well, for a
format may show it.
-/

namespace Marshal

/-- Whose start an object is. -/
inductive Subject
  | untyped
  | model
  | multipartBody
  deriving DecidableEq

inductive Call
  | string (key : Option String) (v : Option String)
  | bool (key : Option String) (v : Option Bool)
  | integer (key : Option String) (v : Option Int64)
  | single (key : Option String) (v : Option Single)
  | double (key : Option String) (v : Option Double)
  | decimal (key : Option String) (v : Option Decimal)
  | bytes (key : Option String) (v : Option Bytes)
  | null (key : Option String)
  | startObject (key : Option String) (subject : Subject)
  | endObject
  | startCollection (key : Option String)
  | endCollection
  deriving DecidableEq

/-- Calls in a row; the first error ends them. -/
abbrev Script := List (Result Call)

/-- The text of a moment, unless RFC 3339 has none for it. -/
def DateTime.wireText (t : DateTime) : Result String :=
  match Rfc3339.format t with
  | .ok s => .ok s
  | .error o => .error (.format (.dateTime t.debugText o.name))

/-- The call that writes a scalar of kind `k`. -/
def Kind.call (key : Option String) : (k : Kind) → Option k.Carrier → Result Call
  | .string, v => .ok (.string key v)
  | .bool, v => .ok (.bool key v)
  | .byte, v => .ok (.integer key (v.map fun n => Int64.ofNat n.toNat))
  | .sbyte, v => .ok (.integer key (v.map fun n => Int64.ofInt n.toInt))
  | .int, v => .ok (.integer key (v.map fun n => Int64.ofInt n.toInt))
  | .long, v => .ok (.integer key v)
  | .float, v => .ok (.single key v)
  | .double, v => .ok (.double key v)
  | .decimal, v => .ok (.decimal key v)
  | .guid, v => .ok (.string key (v.map Guid.text))
  | .date, v => .ok (.string key (v.map Date.text))
  | .time, v => .ok (.string key (v.map Clock.text))
  | .dateTime, none => .ok (.string key none)
  | .dateTime, some t => t.wireText.map fun s => .string key (some s)
  | .timeSpan, v => .ok (.string key (v.map Duration.text))
  | .bytes, v => .ok (.bytes key v)

/-- A collection of scalars; an absent one is no call. -/
def Kind.listScript (key : Option String) (k : Kind) : Option (List k.Carrier) → Script
  | none => []
  | some vs =>
    .ok (.startCollection key) :: vs.map (fun v => k.call none (some v)) ++ [.ok .endCollection]

namespace Untyped

mutual

def calls (key : Option String) : Untyped → List Call
  | null => [.null key]
  | bool b => [.bool key (some b)]
  | integer n => [.integer key (some n)]
  | double x => [.double key (some x)]
  | string s => [.string key (some s)]
  | array items => .startCollection key :: itemCalls items
  | object members => .startObject key .untyped :: memberCalls members

/-- The items, and the end of the collection. -/
def itemCalls : List Untyped → List Call
  | [] => [.endCollection]
  | v :: vs => calls none v ++ itemCalls vs

/-- The members, and the end of the object. -/
def memberCalls : List (String × Untyped) → List Call
  | [] => [.endObject]
  | (k, v) :: ms => calls (some k) v ++ memberCalls ms

end

end Untyped

/-- A payload in the making. A call ends well or in an error, and leaves a state either way. -/
class Draft (σ : Type) where
  call : Call → σ → Result Unit × σ
  /-- Whether an undeclared field of that name has to give way. -/
  shadows : σ → String → Bool
  /-- Takes the finished payload out. -/
  finish : σ → Result Bytes × σ

namespace Draft

variable {σ : Type} [Draft σ]

def run : Script → σ → Result Unit × σ
  | [], s => (.ok (), s)
  | .error e :: _, s => (.error e, s)
  | .ok c :: cs, s =>
    match call c s with
    | (.ok (), s) => run cs s
    | (.error e, s) => (.error e, s)

def runCalls (cs : List Call) (s : σ) : Result Unit × σ :=
  run (cs.map .ok) s

/-- Writes the fields that nothing shadows. -/
def writeAdditional : AdditionalData → σ → Result Unit × σ
  | [], s => (.ok (), s)
  | (key, v) :: rest, s =>
    if shadows s key then writeAdditional rest s
    else match runCalls (v.calls (some key)) s with
      | (.ok (), s) => writeAdditional rest s
      | (.error e, s) => (.error e, s)

@[simp] theorem run_nil (s : σ) : run [] s = (.ok (), s) := rfl

theorem run_append (a b : Script) (s : σ) :
    run (a ++ b) s = match run a s with
      | (.ok (), s) => run b s
      | (.error e, s) => (.error e, s) := by
  induction a generalizing s with
  | nil => rfl
  | cons c a ih =>
    cases c with
    | error e => rfl
    | ok c =>
      simp only [List.cons_append, run]
      split
      · simp [ih]
      · simp

end Draft

end Marshal
