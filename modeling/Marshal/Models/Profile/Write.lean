import Marshal.Models.Profile.Basic
import Marshal.Writing

/-!
How a profile is written: what its store shows, and then a null for every property that has been set
to null. The entries of the store come with the models in them ready to be written.
-/

namespace Marshal

namespace Profile

def writeText (property : Property) : Writing Profile Unit := do
  .call (.string (some property.key) (text? (← get) property))

/-- What an entry holds, if the store shows it. -/
def shown? (p : Profile) (es : List (Entry (Outgoing Store))) (property : Property) :
    Option (Held (Outgoing Store)) :=
  if (Store.get? p property.key).isSome then
    (es.find? (·.key == property.key)).map (·.held)
  else none

def writeManager (es : List (Entry (Outgoing Store))) : Writing Profile Unit := do
  match (shown? (← get) es .manager).bind Held.model? with
  | some m =>
    .component (m.write (some Property.manager.key)) fun m =>
      Store.restore Property.manager.key fun h => (h.mapModel? fun _ => m).getD h
  | none => return

def writeReports (es : List (Entry (Outgoing Store))) : Writing Profile Unit := do
  match (shown? (← get) es .reports).bind Held.models? with
  | some ms =>
    .component (Outgoing.writeList (some Property.reports.key) ms) fun ms =>
      Store.restore Property.reports.key fun _ => .models ms
  | none => return

def writeNulls : List String → Writing Profile Unit
  | [] => return
  | key :: keys => do
    .call (.null (some key))
    writeNulls keys

def writeFields (es : List (Entry (Outgoing Store))) : Writing Profile Unit := do
  writeText .id
  writeText .displayName
  writeText .jobTitle
  writeManager es
  writeReports es
  writeNulls (Store.nulledKeys (← get))

def write (es : List (Entry (Outgoing Store))) (key : Option String) : Writing Profile Unit :=
  .object key .model glance Store.setOnlyChanged (writeFields es)

mutual

def outgoing : Store → Outgoing Store
  | ⟨initialized, onlyChanged, es⟩ =>
    { model := ⟨initialized, onlyChanged, es⟩
      write key := (write (outgoingEntries es) key).exec ⟨initialized, onlyChanged, es⟩ }

def outgoingEntries : List (Entry Store) → List (Entry (Outgoing Store))
  | [] => []
  | ⟨key, dirty, held⟩ :: es => ⟨key, dirty, outgoingHeld held⟩ :: outgoingEntries es

def outgoingHeld : Held Store → Held (Outgoing Store)
  | .null => .null
  | .scalar k v => .scalar k v
  | .strings l => .strings l
  | .plain m => .plain (outgoing m)
  | .model m => .model (outgoing m)
  | .models ms => .models (outgoingAll ms)

def outgoingAll : List Store → List (Outgoing Store)
  | [] => []
  | m :: ms => outgoing m :: outgoingAll ms

end

instance : Writable Profile where
  outgoing := outgoing

end Profile

end Marshal
