import Marshal.Models.Profile.Basic

/-!
Editing a profile somewhere below another one. The entries on the way there are marked as changed,
also where the way ends before its goal.
-/

namespace Marshal

namespace Profile

/-- One step down in a tree of profiles. -/
inductive Hop
  | manager
  | report (index : Nat)
  deriving DecidableEq

/-- Puts an edited value back and marks its entry. -/
def touch (p : Profile) (property : Property) (f : Held Store → Option (Held Store)) : Profile :=
  (Store.update? p property.key f).getD p

/-- The model of an entry, whether or not the store shows it. -/
def heldManager? (p : Profile) : Option Profile :=
  (Store.find? p Property.manager.key).bind (·.held.model?)

def heldReports? (p : Profile) : Option (List Profile) :=
  (Store.find? p Property.reports.key).bind (·.held.models?)

/-- Edits the profile that the hops lead to; gives nothing if there is none. -/
def editAt {β : Type} (f : Profile → β × Profile) : List Hop → Profile → Option β × Profile
  | [], p =>
    let (b, p) := f p
    (some b, p)
  | .manager :: hops, p =>
    match heldManager? p with
    | none => (none, p)
    | some m =>
      let (b, m) := editAt f hops m
      (b, touch p .manager (·.mapModel? fun _ => m))
  | .report i :: hops, p =>
    match heldReports? p with
    | none => (none, p)
    | some ms =>
      match ms[i]? with
      | none => (none, touch p .reports (·.mapModels? id))
      | some m =>
        let (b, m) := editAt f hops m
        (b, touch p .reports (·.mapModels? (·.set i m)))

end Profile

end Marshal
