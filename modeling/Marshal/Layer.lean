import Marshal.Draft.Json
import Marshal.Draft.Form
import Marshal.Draft.Multipart
import Marshal.Draft.Transcript

/-!
Layers around the reading and writing of models. A layer sees every model before and after its
fields are read or written, and on writing once more when its object has been opened. Layers put on
later come first each time.
-/

namespace Marshal

/-- What a layer sees of a model. -/
structure Glance where
  /-- How many undeclared fields it holds; `none` if it keeps none. -/
  extra : Option Nat := none
  /-- The changed keys of its store; `none` without a store. -/
  dirty : Option (List String) := none
  /-- Whether its store returns only changed values. -/
  onlyChanged : Bool := false
  deriving DecidableEq

inductive Phase
  | before
  | after
  | start
  /-- The start, where the value that the layer writes then was refused. -/
  | startRefused
  deriving DecidableEq

def Phase.name : Phase → String
  | before => "before"
  | after => "after"
  | start => "start"
  | startRefused => "start!"

structure Event where
  label : String
  phase : Phase
  glance : Glance
  deriving DecidableEq

abbrev Log := List Event

def Glance.extraText (g : Glance) : String :=
  match g.extra with
  | some n => natText n
  | none => "-"

def Glance.dirtyText (g : Glance) : String :=
  match g.dirty with
  | some keys => ",".intercalate keys ++ (if g.onlyChanged then "!" else "")
  | none => "-"

def Event.text (e : Event) : String :=
  e.label ++ ":" ++ e.phase.name ++ ":" ++ e.glance.extraText ++ ":" ++ e.glance.dirtyText

/-- A layer that logs what it sees. -/
structure Observer where
  label : String
  before : Bool := false
  after : Bool := false
  /-- On writing, whether it sees each model once more when its object has been opened. -/
  start : Bool := false
  /-- On reading, whether it leaves an undeclared field for each event. -/
  tag : Bool := false
  /-- Whether it writes a value of its own into an object that it sees opened. -/
  writes : Bool := true
  deriving DecidableEq

inductive Layer
  /-- Keeps stores in step with payloads: what is read counts as unchanged, and only what has
  changed is written. -/
  | changes
  | observer (o : Observer)
  deriving DecidableEq

def Layer.hasBefore : Layer → Bool
  | changes => true
  | observer o => o.before

def Layer.hasAfter : Layer → Bool
  | changes => true
  | observer o => o.after

def Layer.hasStart : Layer → Bool
  | changes => false
  | observer o => o.start

/-- How a message shows the layers of a writer. -/
def Layer.writerText (layers : List Layer) : String :=
  "WriterHooks \x7b before: " ++ boolText (layers.any hasBefore) ++ ", after: " ++
    boolText (layers.any hasAfter) ++ ", start: " ++ boolText (layers.any hasStart) ++ " \x7d"

/-- How a message shows the layers of a node. -/
def Layer.nodeText (layers : List Layer) (localDiscriminators : Bool) : String :=
  "ParseNodeHooks \x7b before: " ++ boolText (layers.any hasBefore) ++ ", after: " ++
    boolText (layers.any hasAfter) ++ ", local_discriminators: " ++
    boolText localDiscriminators ++ " \x7d"

end Marshal
