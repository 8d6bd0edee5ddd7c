import Marshal.Output

/-!
The writing of models as objects and collections. Layers leave marks on the models that have a
store, so the model comes back with the outcome, marked as far as the writing has come.
-/

namespace Marshal

/-- Writing while a model of type `α` is at hand to take marks. -/
abbrev Writing (α : Type) := ExceptT Error (StateT α WriteM)

namespace Writing

variable {α : Type}

def perform (act : WriteM (Result Unit)) : Writing α Unit :=
  ExceptT.mk (StateT.lift act)

def call (c : Call) : Writing α Unit :=
  perform (Output.call c)

def script (s : Script) : Writing α Unit :=
  perform (Output.run s)

/-- The marked model after the writing, however it ended. -/
def exec (w : Writing α Unit) (a : α) : WriteM (Result Unit × α) :=
  StateT.run (ExceptT.run w) a

/-- Writes a component, and puts back what has become of it. -/
def component {β : Type} (act : WriteM (Result Unit × β)) (back : β → α → α) :
    Writing α Unit := do
  let (r, b) ← (liftM act : StateT α WriteM (Result Unit × β))
  modify (back b)
  ExceptT.mk (pure r)

/-- The layers look at the model and leave their mark. -/
def observe (phase : Phase) (glance : α → Glance) (mark : Bool → α → α) : Writing α Glance := do
  let g ← (liftM (Output.observeAll phase (glance (← get))) : StateT α WriteM Glance)
  modify (mark g.onlyChanged)
  return g

/-- Writes an object between what the layers do. They do not see the end of one that fails. -/
def object (key : Option String) (subject : Subject) (glance : α → Glance)
    (mark : Bool → α → α) (fields : Writing α Unit) : Writing α Unit := do
  let g ← observe .before glance mark
  call (.startObject key subject)
  (liftM (Output.startAll g) : StateT α WriteM Unit)
  fields
  call .endObject
  discard (observe .after glance mark)

/-- As `object`, for a model that takes no marks. -/
def plainObject (key : Option String) (extra : Option Nat) (fields : Writing Unit Unit) :
    Writing Unit Unit :=
  object key .model (fun _ => { extra }) (fun _ a => a) fields

end Writing

/-- A model on its way out: as it is, and how it is written under a key. -/
structure Outgoing (α : Type) where
  model : α
  write : Option String → WriteM (Result Unit × α)

namespace Outgoing

variable {α β : Type}

/-- The model as a part of a larger one. -/
def map (f : α → β) (o : Outgoing α) : Outgoing β where
  model := f o.model
  write key := do
    let (r, a) ← o.write key
    return (r, f a)

/-- A model that is written without marks. -/
def ofUnmarked (a : α) (w : Option String → Writing Unit Unit) : Outgoing α where
  model := a
  write key := do
    let (r, _) ← (w key).exec ()
    return (r, a)

/-- Writes the elements of a collection up to the first error. -/
def writeEach : List (Outgoing α) → WriteM (Result Unit × List α)
  | [] => return (.ok (), [])
  | o :: os => do
    let (r, a) ← o.write none
    match r with
    | .error e => return (.error e, a :: os.map (·.model))
    | .ok () =>
      let (r, as) ← writeEach os
      return (r, a :: as)

/-- Writes a collection. -/
def writeList (key : Option String) (os : List (Outgoing α)) : WriteM (Result Unit × List α) := do
  match ← Output.call (.startCollection key) with
  | .error e => return (.error e, os.map (·.model))
  | .ok () =>
    let (r, as) ← writeEach os
    match r with
    | .error e => return (.error e, as)
    | .ok () => return (← Output.call .endCollection, as)

end Outgoing

/-- Models that can be written. -/
class Writable (α : Type) where
  outgoing : α → Outgoing α
  /-- The content type of a payload, where that is for the model to say. -/
  payloadType? : α → Option String := fun _ => none

end Marshal
