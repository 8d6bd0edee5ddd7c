import Marshal.Json.Node
import Marshal.Form.Node

/-!
A place in a payload of any format, and what can be read there. `rank` bounds how many objects lie
within each other from there on.
-/

namespace Marshal

inductive Node
  | json (n : JsonNode)
  | form (n : FormNode)
  /-- A payload of plain text. -/
  | text (s : String)
  /-- A text without structure at a path of its own, or nothing. -/
  | leaf (path : String) (s : Option String)

namespace Node

/-- The null of a JSON document. -/
def null : Node :=
  .json { value := .null }

instance : Inhabited Node := ⟨null⟩

def path : Node → String
  | json n => n.path
  | form n => n.path
  | text _ => ""
  | leaf path _ => path

/-- A scalar of kind `k`; null is absent. -/
def read? (n : Node) (k : Kind) : Result (Option k.Carrier) :=
  match n with
  | json n => n.read? k
  | form n => n.read? k
  | text s => k.ofText? "" (some s)
  | leaf path s => k.ofText? path s

def text? (n : Node) : Result (Option String) :=
  n.read? .string

def untyped : Node → Untyped
  | json n => n.untyped
  | form n => n.untyped
  | text s => .string s
  | leaf _ (some s) => .string s
  | leaf _ none => .null

def child? (n : Node) (key : String) : Result (Option Node) :=
  match n with
  | json n => return (← n.child? key).map json
  | form n => return (← n.child? key).map form
  | text _ => .error (.unsupported .structuredText)
  | leaf .. => .ok none

/-- The elements of a collection; `none` where the value is null. -/
def elements? (n : Node) : Result (Option (List Node)) :=
  match n with
  | json n => return (← n.elements?).map (·.map json)
  | form n => return (← n.elements?).map (·.map form)
  | text _ => .error (.unsupported .structuredText)
  | leaf .. => .ok none

/-- The members of an object in their order; `none` where the value is null. -/
def members? (n : Node) : Result (Option (Members Node)) :=
  match n with
  | json n => return (← n.members?).map (·.map fun (k, c) => (k, json c))
  | form n => return (← n.members?).map (·.map fun (k, c) => (k, form c))
  | text _ => .error (.unsupported .structuredText)
  | leaf .. => .ok none

/-- A way to go down from a node. -/
inductive Step
  /-- The child of that name. -/
  | child (key : String)
  /-- The element in that place of a collection. -/
  | element (index : Nat)
  /-- The first of the members with that name. -/
  | member (key : String)
  deriving DecidableEq

def step? (n : Node) : Step → Result (Option Node)
  | .child key => n.child? key
  | .element i => return (← n.elements?).bind (·[i]?)
  | .member key => return (← n.members?).bind (·.get? key)

/-- Goes down step by step; gives nothing where there is nothing more. -/
def follow? : List Step → Node → Result (Option Node)
  | [], n => .ok (some n)
  | s :: ss, n => do
    match ← n.step? s with
    | some n => follow? ss n
    | none => return none

/-- A bound on how many objects lie within each other from here on. -/
def rank : Node → Nat
  | json n => n.value.rank
  | form (.fields _) => 1
  | _ => 0

/-- The elements that are scalars of kind `k`; null ones are left out. -/
def readList? (n : Node) (k : Kind) : Result (Option (List k.Carrier)) := do
  match ← n.elements? with
  | none => return none
  | some es => return some (← es.mapM (·.read? k)).reduceOption

end Node

end Marshal
