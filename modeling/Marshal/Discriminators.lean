import Marshal.Parsable
import Marshal.Text.Quoted

/-!
The choice of a factory by a field of the payload, the discriminator. Every base type has a mapping
of its own from the values of that field to factories.
-/

namespace Marshal

structure DiscriminatorMapping (α : Type) where
  factories : Members (Factory α) := []
  /-- What stands for all other values, where no caller says. -/
  default : Option (Factory α) := none

namespace DiscriminatorMapping

variable {α : Type}

def insert (m : DiscriminatorMapping α) (value : String) (f : Factory α) :
    DiscriminatorMapping α :=
  { m with factories := m.factories.put value f }

def ofList (l : List (String × Factory α)) (default : Option (Factory α)) :
    DiscriminatorMapping α :=
  ⟨Members.ofPairs l, default⟩

def get? (m : DiscriminatorMapping α) (value : String) : Option (Factory α) :=
  m.factories.get? value

def length (m : DiscriminatorMapping α) : Nat :=
  m.factories.length

/-- How a message shows a mapping. -/
def debugText (m : DiscriminatorMapping α) : String :=
  "DiscriminatorMapping \x7b values: " ++ Text.quoteList m.factories.keys ++ ", has_default: " ++
    boolText m.default.isSome ++ " \x7d"

end DiscriminatorMapping

/-- The name of the discriminator, and the mappings of base types. -/
structure Discriminators {ι : Type} (M : ι → Type) where
  key : String := "@odata.type"
  mappings : List ((b : ι) × DiscriminatorMapping (M b)) := []

namespace Discriminators

variable {ι : Type} [DecidableEq ι] {M : ι → Type}

def findMapping? (b : ι) :
    List ((b : ι) × DiscriminatorMapping (M b)) → Option (DiscriminatorMapping (M b))
  | [] => none
  | ⟨c, m⟩ :: rest => if h : c = b then some (h ▸ m) else findMapping? b rest

def putMapping (b : ι) (m : DiscriminatorMapping (M b)) :
    List ((b : ι) × DiscriminatorMapping (M b)) → List ((b : ι) × DiscriminatorMapping (M b))
  | [] => [⟨b, m⟩]
  | x :: rest => if x.1 = b then ⟨b, m⟩ :: rest else x :: putMapping b m rest

def mapping? (d : Discriminators M) (b : ι) : Option (DiscriminatorMapping (M b)) :=
  findMapping? b d.mappings

/-- Replaces the mapping of a base type. -/
def setMapping (d : Discriminators M) (b : ι) (m : DiscriminatorMapping (M b)) :
    Discriminators M :=
  { d with mappings := putMapping b m d.mappings }

/-- Changes the mapping of a base type, an empty one if there is none. -/
def update (d : Discriminators M) (b : ι)
    (f : DiscriminatorMapping (M b) → DiscriminatorMapping (M b)) : Discriminators M :=
  d.setMapping b (f ((d.mapping? b).getD {}))

def insert (d : Discriminators M) (b : ι) (value : String) (f : Factory (M b)) :
    Discriminators M :=
  d.update b (·.insert value f)

def setDefault (d : Discriminators M) (b : ι) (f : Factory (M b)) : Discriminators M :=
  d.update b fun m => { m with default := some f }

/-- Takes the mapping of a base type out; gives nothing if there is none. -/
def erase? (d : Discriminators M) (b : ι) : Option (Discriminators M) :=
  (d.mapping? b).map fun _ => { d with mappings := d.mappings.filter fun x => x.1 ≠ b }

/-- The discriminator of a node; one that cannot be read counts as absent. -/
def value? (d : Discriminators M) (n : Node) : Option String :=
  match n.child? d.key with
  | .ok (some c) =>
    match c.text? with
    | .ok s => s
    | .error _ => none
  | _ => none

/-- The factory that the mapping of a base type has for a node. -/
def match? (d : Discriminators M) (b : ι) (n : Node) : Option (Factory (M b)) := do
  (← d.mapping? b).get? (← d.value? n)

/-- The factory for a node, or `fallback`. -/
def resolve (d : Discriminators M) (b : ι) (n : Node) (fallback : Factory (M b)) :
    Factory (M b) :=
  (d.match? b n).getD fallback

/-- As `resolve`, with the default of the mapping as the fallback. The base type is called `name` in
the error where there is none. -/
def resolveStrictly (d : Discriminators M) (b : ι) (name : String) (n : Node) :
    Result (Factory (M b)) :=
  match d.match? b n <|> (d.mapping? b).bind (·.default) with
  | some f => .ok f
  | none => .error (.parse n.path (.noFactory (d.value? n) name))

/-- How a message shows the mappings. -/
def debugText (d : Discriminators M) : String :=
  "DiscriminatorRegistry \x7b key: " ++ Text.quote d.key ++ ", base_types: " ++
    natText d.mappings.length ++ " \x7d"

end Discriminators

end Marshal
