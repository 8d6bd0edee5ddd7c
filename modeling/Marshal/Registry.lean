import Marshal.ContentType
import Marshal.Members
import Marshal.Text.Quoted

/-!
What is known by content type. A look-up tries the type itself and then the type that its suffix
names; what was put in last under a type counts.
-/

namespace Marshal

/-- Entries under normalized content types. -/
structure Registry (F : Type) where
  entries : Members F := []

namespace Registry

variable {F : Type}

def insert (r : Registry F) (contentType : String) (f : F) : Result (Registry F) := do
  return ⟨r.entries.put (← ContentType.normalize contentType) f⟩

/-- Takes an entry out; gives nothing if there is none. -/
def erase? (r : Registry F) (contentType : String) : Option (Registry F) :=
  match ContentType.normalize contentType with
  | .ok key => if r.entries.has key then some ⟨r.entries.erase key⟩ else none
  | .error _ => none

/-- The entry for a normalized type, and the type that it is under. -/
def findKey? (r : Registry F) (key : String) : Option (String × F) :=
  match r.entries.get? key with
  | some f => some (key, f)
  | none => do
    let cleaned ← ContentType.vendorCleaned? key
    return (cleaned, ← r.entries.get? cleaned)

def find (r : Registry F) (contentType : String) : Result (String × F) := do
  let key ← ContentType.normalize contentType
  match r.findKey? key with
  | some found => return found
  | none => .error (.unsupportedContentType key)

def contains (r : Registry F) (contentType : String) : Bool :=
  (r.find contentType).isOk

/-- The types of all entries, sorted by code points. -/
def contentTypes (r : Registry F) : List String :=
  r.entries.keys.mergeSort (decide <| · ≤ ·)

/-- Puts something else in the place of every entry. -/
def mapAll (f : F → F) (r : Registry F) : Registry F :=
  ⟨r.entries.mapValues f⟩

/-- How a message shows a registry of that name. -/
def debugText (name : String) (r : Registry F) : String :=
  name ++ " \x7b content_types: " ++ Text.quoteList r.contentTypes ++ " \x7d"

end Registry

end Marshal
