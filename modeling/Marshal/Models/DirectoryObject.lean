import Marshal.Parsable
import Marshal.Writing

/-!
Objects of a directory: users, groups, and such of which no more is known. The field `@odata.type`
tells them apart.
-/

namespace Marshal

structure DirectoryBase where
  id : Option String := none
  odataType : Option String := none
  deriving DecidableEq

namespace DirectoryBase

def idField : Field DirectoryBase :=
  ⟨"id", Kind.string.codec, id, fun v b => { b with id := v }⟩

def typeField : Field DirectoryBase :=
  ⟨"@odata.type", Kind.string.codec, odataType, fun v b => { b with odataType := v }⟩

end DirectoryBase

structure User where
  base : DirectoryBase := {}
  mail : Option String := none
  deriving DecidableEq

def User.mailField : Field User :=
  ⟨"mail", Kind.string.codec, mail, fun v u => { u with mail := v }⟩

structure Group where
  base : DirectoryBase := {}
  memberCount : Option Int32 := none
  deriving DecidableEq

def Group.memberCountField : Field Group :=
  ⟨"memberCount", Kind.int.codec, memberCount, fun v g => { g with memberCount := v }⟩

inductive DirectoryObject
  | base (b : DirectoryBase)
  | user (u : User)
  | group (g : Group)
  deriving DecidableEq

namespace DirectoryObject

def userType : String := "#microsoft.graph.user"

def groupType : String := "#microsoft.graph.group"

/-- What every object of a directory has. -/
def common : DirectoryObject → DirectoryBase
  | base b => b
  | user u => u.base
  | group g => g.base

def commonView : Projection DirectoryObject DirectoryBase where
  get? o := some o.common
  set b
    | base _ => base b
    | user u => user { u with base := b }
    | group g => group { g with base := b }

def userView : Projection DirectoryObject User where
  get?
    | user u => some u
    | _ => none
  set u
    | user _ => user u
    | o => o

def groupView : Projection DirectoryObject Group where
  get?
    | group g => some g
    | _ => none
  set g
    | group _ => group g
    | o => o

theorem commonView_lawful : commonView.Lawful where
  get?_set o b _ := by cases o <;> rfl
  set_get? o b h := by cases h; cases o <;> rfl
  set_set o b c := by cases o <;> rfl

theorem userView_lawful : userView.Lawful where
  get?_set o b h := by cases o <;> simp_all [userView]
  set_get? o b h := by cases o <;> simp_all [userView]
  set_set o b c := by cases o <;> rfl

theorem groupView_lawful : groupView.Lawful where
  get?_set o b h := by cases o <;> simp_all [groupView]
  set_get? o b h := by cases o <;> simp_all [groupView]
  set_set o b c := by cases o <;> rfl

def commonReaders : FieldReaders DirectoryObject :=
  (Field.readers [DirectoryBase.idField, DirectoryBase.typeField]).project commonView

def readers : DirectoryObject → FieldReaders DirectoryObject
  | base _ => commonReaders
  | user _ => commonReaders.extend ((Field.readers [User.mailField]).project userView)
  | group _ => commonReaders.extend ((Field.readers [Group.memberCountField]).project groupView)

def createUser : Factory DirectoryObject := fun _ => .ok (user {})

def createGroup : Factory DirectoryObject := fun _ => .ok (group {})

instance : Parsable DirectoryObject where
  create _ := .ok (base {})
  fieldReaders _ o := o.readers
  glance _ := {}

/-- The type comes first, so that a reader meets it before the other fields. -/
def script (o : DirectoryObject) : Script :=
  Field.scripts [DirectoryBase.typeField, DirectoryBase.idField] o.common ++
    match o with
    | base _ => []
    | user u => User.mailField.script u
    | group g => Group.memberCountField.script g

def write (o : DirectoryObject) (key : Option String) : Writing Unit Unit :=
  .plainObject key none (.script o.script)

instance : Writable DirectoryObject where
  outgoing o := .ofUnmarked o o.write

end DirectoryObject

end Marshal
