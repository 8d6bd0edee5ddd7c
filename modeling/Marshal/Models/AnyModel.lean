import Marshal.Models.ModelType
import Marshal.Multipart.Write

/-!
A model of any type, as a part of a multipart body may hold it; the body within the part may hold
such models in its turn.
-/

namespace Marshal

inductive AnyModel
  | employee (e : Employee)
  | contact (c : Contact)
  | directoryObject (o : DirectoryObject)
  | profile (p : Store)
  | body (b : MultipartBody AnyModel)

/-- A multipart body with models of any type. -/
abbrev AnyBody := MultipartBody AnyModel

instance : Inhabited AnyModel := ⟨.contact {}⟩

namespace AnyModel

def ofModel : (t : ModelType) → t.Carrier → AnyModel
  | .employee, e => employee e
  | .contact, c => contact c
  | .directoryObject, o => directoryObject o
  | .profile, p => profile p

mutual

def outgoing : AnyModel → Outgoing AnyModel
  | employee e => (Writable.outgoing e).map employee
  | contact c => (Writable.outgoing c).map contact
  | directoryObject o => (Writable.outgoing o).map directoryObject
  | profile p => (Profile.outgoing p).map profile
  | body ⟨boundary, parts, encoders⟩ =>
    { model := body ⟨boundary, parts, encoders⟩
      write key := do
        let (r, b) ← MultipartBody.write (outgoingParts parts) key ⟨boundary, parts, encoders⟩
        return (r, body b) }

def outgoingParts : List (String × Part AnyModel) → List (String × Part (Outgoing AnyModel))
  | [] => []
  | (key, ⟨name, contentType, fileName, content⟩) :: ps =>
    (key, ⟨name, contentType, fileName, outgoingContent content⟩) :: outgoingParts ps

def outgoingContent : PartContent AnyModel → PartContent (Outgoing AnyModel)
  | .object m => .object m.outgoing
  | .text s => .text s
  | .binary b => .binary b

end

end AnyModel

instance : Writable AnyBody where
  outgoing b :=
    { model := b
      write := fun key => MultipartBody.write (AnyModel.outgoingParts b.parts) key b }
  payloadType? b := some b.contentType

end Marshal
