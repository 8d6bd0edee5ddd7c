import Marshal.Node
import Marshal.Layer
import Marshal.Registry

/-!
Decoders: what makes a node of a payload, for each content type.
-/

namespace Marshal

/-- How a payload is understood. -/
inductive Decoder.Format
  | json (maxDepth : Nat)
  | text
  | form
  /-- A text that says what was to be read, unless that is the word `null`. -/
  | echo (tag : String)
  deriving DecidableEq

structure Decoder where
  format : Decoder.Format
  /-- The content type that the decoder is made for. -/
  contentType : String
  /-- The layers around models that are read, the newest first. -/
  layers : List Layer := []

/-- The root of a payload, and the layers around what is read from there. -/
structure Root where
  node : Node
  layers : List Layer := []

namespace Decoder

def json (maxDepth : Nat := 64) : Decoder := ⟨.json maxDepth, ContentType.json, []⟩

def text : Decoder := ⟨.text, ContentType.plainText, []⟩

def form : Decoder := ⟨.form, ContentType.form, []⟩

def echo (tag contentType : String) : Decoder := ⟨.echo tag, contentType, []⟩

/-- Takes the quotes off a text that has them on both ends. -/
def unquoted (s : String) : String :=
  match s.toList with
  | '"' :: cs => if cs.getLast? = some '"' then String.ofList cs.dropLast else s
  | _ => s

def Format.node (format : Format) (contentType : String) (content : Bytes) : Result Node :=
  match format with
  | json maxDepth =>
    match content.text?.bind Json.ofString? with
    | some value => .ok (.json { value, maxDepth })
    | none => .error (.parse "" .invalidJson)
  | text =>
    match content.text? with
    | some s => .ok (.text (unquoted s))
    | none => .error (.parse "" .notUtf8)
  | form => .ok (.form (.ofContent content))
  | echo tag =>
    let s := content.lossyText
    .ok (.leaf "echo" (if s = "null" then none else some (tag ++ "|" ++ contentType ++ "|" ++ s)))

/-- Puts a layer around what is read. -/
def wrap (l : Layer) (d : Decoder) : Decoder :=
  { d with layers := l :: d.layers }

def root (d : Decoder) (contentType : String) (content : Bytes) : Result Root :=
  (d.format.node contentType content).map fun node => { node, layers := d.layers }

end Decoder

abbrev Decoders := Registry Decoder

namespace Decoders

def stock : Decoders := ⟨[
  (ContentType.json, .json),
  (ContentType.plainText, .text),
  (ContentType.form, .form)]⟩

def register (r : Decoders) (d : Decoder) : Result Decoders :=
  r.insert d.contentType d

/-- The root of a payload, which may not be empty. -/
def root (r : Decoders) (contentType : String) (content : Bytes) : Result Root := do
  if content.isEmpty then .error (.invalidArgument .emptyContent)
  else
    let (key, d) ← r.find contentType
    d.root key content

end Decoders

end Marshal
