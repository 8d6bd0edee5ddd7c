import Marshal.FieldReaders
import Marshal.Draft.Call
import Marshal.WireEnum

/-!
The flat fields of models: a name, a way to read and to write its values, and the place in the model
where they are kept.
-/

namespace Marshal

/-- How the values of a field are read and written. -/
structure Codec (V : Type) where
  read? : Node → Result (Option V)
  script : Option String → Option V → Script

def Kind.codec (k : Kind) : Codec k.Carrier where
  read? n := n.read? k
  script key v := [k.call key v]

def Kind.listCodec (k : Kind) : Codec (List k.Carrier) where
  read? n := n.readList? k
  script key vs := k.listScript key vs

namespace WireEnum

variable {V : Type}

def readNode? (e : WireEnum V) (n : Node) : Result (Option V) := do
  return (← n.text?).bind e.read?

/-- The values of a collection that have a name; null elements and unknown names are left out. -/
def readNodes? (e : WireEnum V) (n : Node) : Result (Option (List V)) := do
  match ← n.elements? with
  | none => return none
  | some es => return some (← es.mapM e.readNode?).reduceOption

/-- A value without a name is not written. -/
def script [DecidableEq V] (e : WireEnum V) (key : Option String) (v : Option V) : Script :=
  match v.bind e.write? with
  | some s => [.ok (.string key (some s))]
  | none => []

def listScript [DecidableEq V] (e : WireEnum V) (key : Option String) : Option (List V) → Script
  | none => []
  | some vs =>
    .ok (.startCollection key) :: vs.flatMap (fun v => e.script none (some v)) ++
      [.ok .endCollection]

def codec [DecidableEq V] (e : WireEnum V) : Codec V where
  read? := e.readNode?
  script := e.script

def listCodec [DecidableEq V] (e : WireEnum V) : Codec (List V) where
  read? := e.readNodes?
  script := e.listScript

end WireEnum

structure Field (α : Type) where
  name : String
  {Value : Type}
  codec : Codec Value
  get : α → Option Value
  set : Option Value → α → α

namespace Field

variable {α : Type}

def reader (f : Field α) : FieldReader α := fun n =>
  .update fun a => return f.set (← ReadM.ofResult (f.codec.read? n)) a

def script (f : Field α) (a : α) : Script :=
  f.codec.script (some f.name) (f.get a)

/-- The readers of the fields, in their order. -/
def readers (fs : List (Field α)) : FieldReaders α :=
  .ofList (fs.map fun f => (f.name, f.reader))

/-- Writes the fields, in their order. -/
def scripts (fs : List (Field α)) (a : α) : Script :=
  fs.flatMap (·.script a)

end Field

end Marshal
