import Marshal.Discriminators
import Marshal.Models.Contact
import Marshal.Models.DirectoryObject
import Marshal.Models.Employee
import Marshal.Models.Profile.Write

/-!
The types of models that can be read, each of which may have a mapping of discriminators.
-/

namespace Marshal

inductive ModelType
  | employee
  | contact
  | directoryObject
  | profile
  deriving DecidableEq

namespace ModelType

/-- The models of a type. -/
@[reducible] def Carrier : ModelType → Type
  | employee => Employee
  | contact => Contact
  | directoryObject => DirectoryObject
  | profile => Profile

/-- How an error names the type. -/
def name : ModelType → String
  | employee => "Employee"
  | contact => "Contact"
  | directoryObject => "DirectoryObject"
  | profile => "Profile"

instance : (t : ModelType) → Parsable t.Carrier
  | employee => inferInstanceAs (Parsable Employee)
  | contact => inferInstanceAs (Parsable Contact)
  | directoryObject => inferInstanceAs (Parsable DirectoryObject)
  | profile => inferInstanceAs (Parsable Profile)

instance : (t : ModelType) → Writable t.Carrier
  | employee => inferInstanceAs (Writable Employee)
  | contact => inferInstanceAs (Writable Contact)
  | directoryObject => inferInstanceAs (Writable DirectoryObject)
  | profile => inferInstanceAs (Writable Profile)

end ModelType

/-- The mappings of the types of models. -/
abbrev ModelDiscriminators := Discriminators ModelType.Carrier

/-- Users and groups are told apart by their type. -/
def DirectoryObject.mapping : DiscriminatorMapping DirectoryObject :=
  .ofList [(userType, createUser), (groupType, createGroup)] none

namespace ModelDiscriminators

/-- The mappings where none are given. -/
def stock : ModelDiscriminators :=
  Discriminators.setMapping {} .directoryObject DirectoryObject.mapping

end ModelDiscriminators

end Marshal
