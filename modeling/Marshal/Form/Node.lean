import Marshal.Form.Encoding
import Marshal.Kind
import Marshal.Untyped
import Marshal.Text.Case

/-!
A form that has been received, and its fields. Values under one name, whatever its letter case, are
joined with commas under the spelling that came first.
-/

namespace Marshal

structure FormField where
  key : String
  text : String
  deriving DecidableEq

/-- Fields under their names in lower case. -/
abbrev FormFields := Members FormField

namespace FormFields

/-- Adds the value of a name whose blanks are off. -/
def add (fields : FormFields) (key value : String) : FormFields :=
  match Members.get? fields (Text.lower key) with
  | some f => Members.put fields (Text.lower key) { f with text := f.text ++ "," ++ value }
  | none => Members.put fields (Text.lower key) ⟨key, value⟩

/-- Pairs with a blank name count for nothing. -/
def addPair (fields : FormFields) (p : String × String) : FormFields :=
  let key := Text.trim p.1
  if key.isEmpty then fields else fields.add key p.2

def ofPairs (pairs : Form.Pairs) : FormFields :=
  pairs.foldl addPair []

def find? (fields : FormFields) (key : String) : Option FormField :=
  Members.get? fields (Text.lower key)

def list (fields : FormFields) : List FormField :=
  fields.map Prod.snd

end FormFields

inductive FormNode
  /-- The form itself. -/
  | fields (f : FormFields)
  | scalar (path text : String)

namespace FormNode

def ofContent (b : Bytes) : FormNode :=
  .fields (.ofPairs (Form.decode b))

def path : FormNode → String
  | fields _ => ""
  | scalar path _ => path

/-- The node one step further down. A path shows its steps as they are. -/
def child (n : FormNode) (step text : String) : FormNode :=
  .scalar (n.path ++ "/" ++ step) text

/-- The word that stands for an absent value. -/
def isNull (text : String) : Bool :=
  Text.eqIgnoringCase text "null"

def text? : FormNode → Result (Option String)
  | scalar _ text => .ok (if isNull text then none else some text)
  | n@(fields _) => .error (.parse n.path (.expected .value .form))

def read? (n : FormNode) (k : Kind) : Result (Option k.Carrier) := do
  k.ofText? n.path (← n.text?)

def untyped : FormNode → Untyped
  | scalar _ text => if isNull text then .null else .string text
  | fields f => .object (f.list.foldl (fun m x => Members.put m x.key (.string x.text)) [])

def child? (n : FormNode) (key : String) : Result (Option FormNode) :=
  match n with
  | fields f => .ok ((f.find? key).map fun x => n.child x.key x.text)
  | scalar .. => .ok none

/-- A field is a list of items between commas. -/
def elements? (n : FormNode) : Result (Option (List FormNode)) :=
  match n with
  | scalar _ text =>
    if isNull text then .ok none
    else
      let items := Text.splitOn ',' text.toList
      .ok (some (items.zipIdx.map fun (item, i) =>
        n.child (natText i) (String.ofList (Text.trimChars item))))
  | fields _ => .error (.unsupported .formAsCollection)

def members? (n : FormNode) : Result (Option (Members FormNode)) :=
  match n with
  | fields f => .ok (some (f.list.map fun x => (x.key, n.child x.key x.text)))
  | scalar path _ => .error (.unsupported (.formFieldAsObject path))

end FormNode

end Marshal
