import Marshal.Models.DirectoryObject
import Marshal.Proofs.Members
import Marshal.Proofs.Reading.Filling
import Marshal.Proofs.Reading.Run

/-!
The readers of directory objects. Which there are depends on whether the object is a user, a group
or neither, and that does not change while its members are read.
-/

namespace Marshal

namespace DirectoryObject

def SameKind : DirectoryObject → DirectoryObject → Prop
  | base _, base _ | user _, user _ | group _, group _ => True
  | _, _ => False

theorem SameKind.refl (o : DirectoryObject) : o.SameKind o := by
  cases o <;> trivial

theorem SameKind.symm {o o' : DirectoryObject} (h : o.SameKind o') : o'.SameKind o := by
  cases o <;> cases o' <;> trivial

theorem SameKind.trans {o o' o'' : DirectoryObject} (h : o.SameKind o') (h' : o'.SameKind o'') :
    o.SameKind o'' := by
  cases o <;> cases o' <;> cases o'' <;> trivial

def rows : DirectoryObject → Members (FieldReader DirectoryObject)
  | base _ => [("id", FieldReaders.lift commonView DirectoryBase.idField.reader),
      ("@odata.type", FieldReaders.lift commonView DirectoryBase.typeField.reader)]
  | user _ => [("id", FieldReaders.lift commonView DirectoryBase.idField.reader),
      ("@odata.type", FieldReaders.lift commonView DirectoryBase.typeField.reader),
      ("mail", FieldReaders.lift userView User.mailField.reader)]
  | group _ => [("id", FieldReaders.lift commonView DirectoryBase.idField.reader),
      ("@odata.type", FieldReaders.lift commonView DirectoryBase.typeField.reader),
      ("memberCount", FieldReaders.lift groupView Group.memberCountField.reader)]

theorem readers_eq (o : DirectoryObject) : o.readers = ⟨o.rows⟩ := by
  cases o <;> rfl

/-- Every name has the reader of a field or none. -/
theorem readers_cases (o : DirectoryObject) (name : String) :
    (name = "id" ∧ o.readers.get? name =
      some (FieldReaders.lift commonView DirectoryBase.idField.reader)) ∨
    (name = "@odata.type" ∧ o.readers.get? name =
      some (FieldReaders.lift commonView DirectoryBase.typeField.reader)) ∨
    (name = "mail" ∧ o.SameKind (user {}) ∧ o.readers.get? name =
      some (FieldReaders.lift userView User.mailField.reader)) ∨
    (name = "memberCount" ∧ o.SameKind (group {}) ∧ o.readers.get? name =
      some (FieldReaders.lift groupView Group.memberCountField.reader)) ∨
    o.readers.get? name = none := by
  rw [readers_eq]
  by_cases hid : name = "id"
  · subst hid
    exact .inl ⟨rfl, by cases o <;> rfl⟩
  by_cases htype : name = "@odata.type"
  · subst htype
    exact .inr (.inl ⟨rfl, by cases o <;> rfl⟩)
  by_cases hmail : name = "mail" ∧ o.SameKind (user {})
  · obtain ⟨rfl, hkind⟩ := hmail
    refine .inr (.inr (.inl ⟨rfl, hkind, ?_⟩))
    cases o <;> first | rfl | exact hkind.elim
  by_cases hcount : name = "memberCount" ∧ o.SameKind (group {})
  · obtain ⟨rfl, hkind⟩ := hcount
    refine .inr (.inr (.inr (.inl ⟨rfl, hkind, ?_⟩)))
    cases o <;> first | rfl | exact hkind.elim
  refine .inr (.inr (.inr (.inr (Members.get?_eq_none_iff.mpr ?_))))
  cases o <;> simp_all [rows, SameKind]

end DirectoryObject

end Marshal
