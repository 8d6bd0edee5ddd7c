import Marshal.Draft.PlainText
import Marshal.Form.Encoding

/-!
A form in the making: the fields of one flat object. A collection of scalars is its field once for
every element.
-/

namespace Marshal

structure FormDraft where
  pairs : Form.Pairs := []
  inRoot : Bool := false
  /-- The collection that is open. -/
  collection : Option String := none
  deriving DecidableEq

namespace FormDraft

/-- The name that a value goes under. -/
def fieldName (key : Option String) (d : FormDraft) : Result String :=
  match key, d.collection with
  | some k, none => .ok k
  | none, some c => .ok c
  | some _, some c => .error (.unsupported (.namedInFormCollection c))
  | none, none => .error (.unsupported .unnamedFormValue)

def put (key : Option String) (s : String) (d : FormDraft) : Result Unit × FormDraft :=
  match d.fieldName key with
  | .error e => (.error e, d)
  | .ok name =>
    if d.inRoot then (.ok (), { d with pairs := d.pairs ++ [(name, s)] })
    else (.error (.unsupported (.outsideForm name)), d)

def startObject (key : Option String) (d : FormDraft) : Result Unit × FormDraft :=
  if d.inRoot || key.isSome then (.error (.unsupported .nestedFormObject), d)
  else (.ok (), { d with inRoot := true })

def endObject (d : FormDraft) : Result Unit × FormDraft :=
  if d.inRoot then (.ok (), { d with inRoot := false })
  else (.error (.unsupported .endOutsideForm), d)

def startCollection (key : Option String) (d : FormDraft) : Result Unit × FormDraft :=
  match key, d.collection with
  | none, _ => (.error (.unsupported .rootFormCollection), d)
  | some _, some _ => (.error (.unsupported .nestedFormCollection), d)
  | some k, none => (.ok (), { d with collection := some k })

def call (c : Call) (d : FormDraft) : Result Unit × FormDraft :=
  match c with
  | .startObject key _ => d.startObject key
  | .endObject => d.endObject
  | .startCollection key => d.startCollection key
  | .endCollection => (.ok (), { d with collection := none })
  | c =>
    match c.lineText? with
    | some (some s) => d.put c.key? s
    | _ => (.ok (), d)

/-- A field that has been written, whatever the ASCII case of its name. -/
def shadows (d : FormDraft) (key : String) : Bool :=
  d.pairs.any fun p => Text.eqIgnoringCase p.1 key

def finish (d : FormDraft) : Result Bytes × FormDraft :=
  (.ok (Bytes.ofString (String.ofList (Form.encode d.pairs))), { d with pairs := [] })

instance : Draft FormDraft where
  call := call
  shadows := shadows
  finish := finish

end FormDraft

end Marshal
