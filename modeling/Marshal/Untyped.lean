import Marshal.Members
import Marshal.Number.Shortest

/-!
Values kept for fields that a model does not declare: trees of scalars, arrays and objects, whatever
format they came in.
-/

namespace Marshal

inductive Untyped
  | null
  | bool (b : Bool)
  | integer (n : Int64)
  | double (x : Double)
  | string (s : String)
  | array (items : List Untyped)
  | object (members : List (String × Untyped))

/-- The undeclared fields of a model. -/
abbrev AdditionalData := Members Untyped

def boolText (b : Bool) : String :=
  if b then "true" else "false"

namespace Untyped

instance : Inhabited Untyped := ⟨null⟩

def isNull : Untyped → Bool
  | null => true
  | _ => false

def asString? : Untyped → Option String
  | string s => some s
  | _ => none

def asArray? : Untyped → Option (List Untyped)
  | array items => some items
  | _ => none

def asObject? : Untyped → Option (Members Untyped)
  | object members => some members
  | _ => none

/-- The text of a scalar on one line; arrays and objects have none. -/
def scalarText? : Untyped → Option String
  | null => some "null"
  | bool b => some (boolText b)
  | integer n => some (intText n.toInt)
  | double x => some (x.text .plain)
  | string s => some s
  | array _ | object _ => none

mutual

/-- Equality, where the order of members does not count and doubles compare as numbers. -/
def same : Untyped → Untyped → Bool
  | null, null => true
  | bool a, bool b => a == b
  | integer a, integer b => a == b
  | double a, double b => a.same b
  | string a, string b => a == b
  | array a, array b => sameItems a b
  | object a, object b => a.length == b.length && sameMembers a b
  | _, _ => false

def sameItems : List Untyped → List Untyped → Bool
  | [], [] => true
  | a :: as, b :: bs => same a b && sameItems as bs
  | _, _ => false

/-- Whether every member of the first list has an equal value in the second. -/
def sameMembers : List (String × Untyped) → List (String × Untyped) → Bool
  | [], _ => true
  | (k, a) :: as, bs =>
    (match bs.lookup k with
      | some b => same a b
      | none => false) && sameMembers as bs

end

end Untyped

end Marshal
