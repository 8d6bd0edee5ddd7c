import Marshal.Encoder
import Marshal.FieldReaders
import Marshal.Text.Case

/-!
Multipart bodies: named parts in order. Letter case does not tell names apart. A part holds a text,
bytes, or a model that is written in the content type of the part.
-/

namespace Marshal

/-- What a part holds, where `M` are the models. -/
inductive PartContent (M : Type)
  | object (m : M)
  | text (s : String)
  | binary (b : Bytes)

namespace PartContent

variable {M : Type}

instance : Inhabited (PartContent M) := ⟨text ""⟩

def text? : PartContent M → Option String
  | text s => some s
  | _ => none

def binary? : PartContent M → Option Bytes
  | binary b => some b
  | _ => none

/-- How a message shows what a part holds. -/
def debugText : PartContent M → String
  | object _ => "Object(..)"
  | text s => "Text(" ++ Text.quote s ++ ")"
  | binary b => "Binary(" ++ natText b.length ++ " bytes)"

end PartContent

structure Part (M : Type) where
  name : String
  contentType : String
  fileName : Option String
  content : PartContent M
  deriving Inhabited

/-- How a message shows a part. -/
def Part.debugText {M : Type} (p : Part M) : String :=
  "MultipartPart \x7b name: " ++ Text.quote p.name ++ ", content_type: " ++
    Text.quote p.contentType ++ ", file_name: " ++
    (match p.fileName with
      | some f => "Some(" ++ Text.quote f ++ ")"
      | none => "None") ++
    ", value: " ++ p.content.debugText ++ " \x7d"

structure MultipartBody (M : Type) where
  boundary : String
  /-- The parts under their names in lower case. -/
  parts : List (String × Part M) := []
  /-- What writes the models in the parts. -/
  encoders : Encoders := .stock

namespace MultipartBody

variable {M : Type}

/-- A body with a boundary made from a seed. -/
def ofSeed (seed : BitVec 122) : MultipartBody M :=
  { boundary := (Guid.ofSeed seed).plainText }

/-- A body is only written, so it has no fields to be read. -/
def fieldReaders : FieldReaders (MultipartBody M) := .empty

def contentType (b : MultipartBody M) : String :=
  "multipart/form-data; boundary=" ++ b.boundary

/-- Adds a part, in the place of the one with the same name. -/
def add (b : MultipartBody M) (p : Part M) : Result (MultipartBody M) :=
  if (Text.trim p.name).isEmpty then .error (.invalidArgument .blankPartName)
  else if (Text.trim p.contentType).isEmpty then .error (.invalidArgument .blankPartType)
  else .ok { b with parts := Members.put b.parts (Text.lower p.name) p }

def get? (b : MultipartBody M) (name : String) : Option (Part M) :=
  Members.get? b.parts (Text.lower name)

def has (b : MultipartBody M) (name : String) : Bool :=
  Members.has b.parts (Text.lower name)

def erase (b : MultipartBody M) (name : String) : MultipartBody M :=
  { b with parts := Members.erase b.parts (Text.lower name) }

/-- The parts in their order. -/
def list (b : MultipartBody M) : List (Part M) :=
  b.parts.map Prod.snd

def length (b : MultipartBody M) : Nat :=
  b.parts.length

/-- How a message shows a body. -/
def debugText (b : MultipartBody M) : String :=
  "MultipartBody \x7b boundary: " ++ Text.quote b.boundary ++ ", parts: [" ++
    ", ".intercalate (b.list.map Part.debugText) ++ "] \x7d"

end MultipartBody

end Marshal
