import Marshal.Json.Value

/-!
Looking into JSON values of a known layout. What is not there, or is something else, gives nothing.
-/

namespace Marshal.Json

def isNull : Json → Bool
  | null => true
  | _ => false

def asString? : Json → Option String
  | string s => some s
  | _ => none

/-- The items of an array; anything else has none. -/
def items : Json → List Json
  | array l => l
  | _ => []

/-- The members of an object; anything else has none. -/
def members : Json → Members Json
  | object m => m
  | _ => []

def member? (j : Json) (name : String) : Option Json :=
  j.members.get? name

/-- A member, where null counts as absent. -/
def some? (j : Json) (name : String) : Option Json :=
  (j.member? name).filter (!·.isNull)

@[simp] theorem member?_object (m : Members Json) (name : String) :
    (object m).member? name = m.get? name := rfl

end Marshal.Json
