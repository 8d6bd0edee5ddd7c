import Marshal.Field

/-!
Reading models. A model is made by a factory, and then the reader of each field that the payload has
fills it in; other fields are kept if the model keeps such, and dropped otherwise.
-/

namespace Marshal

/-- Makes a model for a node, before its fields are read. -/
abbrev Factory (α : Type) := Node → Result α

class Parsable (α : Type) where
  /-- The factory of the values nested in a model of this type. -/
  create : Factory α
  /-- The field readers of a model, given a reader for models nested in it. -/
  fieldReaders : (Node → ReadM (Option α)) → α → FieldReaders α
  glance : α → Glance
  /-- Keeps an undeclared field. -/
  keep? : Option (String → Untyped → α → α) := none
  /-- Says to the store of a model whether its initial values are complete. -/
  setInitialized : Bool → α → α := fun _ a => a

/-- How the models of a payload are made: the layers around them, and the choice of a factory. -/
structure Reading.Context (α : Type) where
  layers : List Layer := []
  resolve : Node → Factory α → Factory α := fun _ f => f

namespace Parsable

variable {α : Type} [Parsable α]

/-- A layer sees a model before or after its fields are read. -/
def observe (phase : Phase) (a : α) : Layer → ReadM α
  | .changes => return setInitialized (phase == .after) a
  | .observer o => do
    if (if phase = .before then o.before else o.after) then
      modify (· ++ [⟨o.label, phase, glance a⟩])
      match o.tag, keep? (α := α) with
      | true, some keep => return keep (o.label ++ "_" ++ phase.name) (.bool true) a
      | _, _ => return a
    else return a

/-- Reads one member of an object. -/
def fillMember (readers : FieldReaders α) (member : String × Node) : FillM α Unit :=
  match readers.get? member.1 with
  | some r => r member.2
  | none =>
    match keep? (α := α) with
    | some keep => modify (keep member.1 member.2.untyped)
    | none => return

/-- Fills in the fields of a model between the layers. -/
def fill (layers : List Layer) (self : Node → ReadM (Option α)) (members : Members Node) :
    FillM α Unit := do
  layers.forM fun l => .update (observe .before · l)
  let readers := fieldReaders self (← get)
  members.forM (fillMember readers)
  layers.forM fun l => .update (observe .after · l)

/-- Reads an object in which models lie within each other at most `depth` deep. -/
def readAt (c : Reading.Context α) : Nat → Factory α → Node → ReadM (Option α)
  | 0, _, _ => return none
  | depth + 1, factory, n => do
    match ← ReadM.ofResult n.members? with
    | none => return none
    | some members =>
      let a ← ReadM.ofResult (c.resolve n factory n)
      return some (← (fill c.layers (readAt c depth create) members).on a)

/-- Reads an object; null is absent. -/
def read? (c : Reading.Context α) (factory : Factory α) (n : Node) : ReadM (Option α) :=
  readAt c (n.rank + 1) factory n

/-- Reads a collection of objects with `read`; null elements are left out. -/
def readAll? (read : Node → ReadM (Option α)) (n : Node) : ReadM (Option (List α)) := do
  match ← ReadM.ofResult n.elements? with
  | none => return none
  | some es => return some (← es.mapM read).reduceOption

/-- Reads a collection of objects. -/
def readList? (c : Reading.Context α) (factory : Factory α) (n : Node) :
    ReadM (Option (List α)) :=
  readAll? (read? c factory) n

end Parsable

end Marshal
