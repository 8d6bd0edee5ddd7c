import Marshal.Number.Digits
import Marshal.Text.Case
import Marshal.Text.Blank
import Marshal.Text.Split

/-!
Enumerations and the names of their members on the wire. A member may be renamed there. The values
of a flag enumeration are sets of bits, written as the names of members that cover them.
-/

namespace Marshal

structure EnumMember (V : Type) where
  value : V
  name : String
  wireName : Option String := none

/-- The name that is written. -/
def EnumMember.writtenName {V : Type} (m : EnumMember V) : String :=
  m.wireName.getD m.name

/-- How the values of a flag enumeration are sets of bits. -/
structure FlagBits (V : Type) where
  toBits : V → UInt64
  ofBits : UInt64 → V
  delimiter : Char := ','

structure WireEnum (V : Type) where
  members : List (EnumMember V)
  flags : Option (FlagBits V) := none

namespace WireEnum

variable {V : Type}

/-- The first member with this name on the wire, else the first with this name. Case does not
count. -/
def find? (e : WireEnum V) (token : String) : Option V :=
  ((e.members.find? fun m => m.wireName.any (Text.eqIgnoringCase · token)) <|>
    e.members.find? fun m => Text.eqIgnoringCase m.name token).map (·.value)

/-- The bits that one token stands for: those of a member, or a number. -/
def tokenBits? (e : WireEnum V) (f : FlagBits V) (token : String) : Option UInt64 :=
  match e.find? token with
  | some v => some (f.toBits v)
  | none => readUInt64? token.toList

/-- The tokens of a list that are not blank. -/
def tokens (f : FlagBits V) (raw : String) : List String :=
  ((Text.splitOn f.delimiter raw.toList).map fun t => String.ofList (Text.trimChars t)).filter
    (!·.isEmpty)

/-- The bits of all known tokens, unless none is known. -/
def readFlags? (e : WireEnum V) (f : FlagBits V) (raw : String) : Option V :=
  match (tokens f raw).filterMap (e.tokenBits? f) with
  | [] => none
  | bits => some (f.ofBits (bits.foldl (· ||| ·) 0))

def read? (e : WireEnum V) (raw : String) : Option V :=
  let raw := Text.trim raw
  if raw.isEmpty then none
  else match e.flags with
    | some f => e.readFlags? f raw
    | none => e.find? raw

/-- The names of members that add bits of their own, each within `bits`, taken in order. -/
def coverFrom (f : FlagBits V) (bits covered : UInt64) : List (EnumMember V) → List String
  | [] => []
  | m :: ms =>
    let b := f.toBits m.value
    if b = 0 ∨ b &&& bits ≠ b ∨ b &&& ~~~covered = 0 then coverFrom f bits covered ms
    else m.writtenName :: coverFrom f bits (covered ||| b) ms

def writeFlags? (e : WireEnum V) (f : FlagBits V) (v : V) : Option String :=
  let bits := f.toBits v
  if bits = 0 then (e.members.find? fun m => f.toBits m.value == 0).map (·.writtenName)
  else match coverFrom f bits 0 e.members with
    | [] => none
    | names => some ((String.singleton f.delimiter).intercalate names)

/-- The text of a value, if some member or members stand for it. -/
def write? [DecidableEq V] (e : WireEnum V) (v : V) : Option String :=
  match e.flags with
  | some f => e.writeFlags? f v
  | none => (e.members.find? fun m => m.value = v).map (·.writtenName)

end WireEnum

end Marshal
