import Marshal.Output
import Marshal.Registry

/-!
Encoders: what starts a new payload, for each content type.
-/

namespace Marshal

inductive Encoder.Format
  | json
  | text
  | form
  | multipart
  /-- A list of the calls, below a line with the tag. -/
  | transcript (tag : String)
  deriving DecidableEq

structure Encoder where
  format : Encoder.Format
  /-- The content type that the encoder is made for. -/
  contentType : String
  /-- The layers around models that are written, the newest first. -/
  layers : List Layer := []

namespace Encoder

def json : Encoder := ⟨.json, ContentType.json, []⟩

def text : Encoder := ⟨.text, ContentType.plainText, []⟩

def form : Encoder := ⟨.form, ContentType.form, []⟩

def multipart : Encoder := ⟨.multipart, ContentType.multipart, []⟩

def transcript (tag contentType : String) : Encoder := ⟨.transcript tag, contentType, []⟩

/-- An empty payload. -/
def Format.draft (format : Format) (contentType : String) : AnyDraft :=
  match format with
  | json => .json {}
  | text => .text {}
  | form => .form {}
  | multipart => .multipart {}
  | transcript tag => .transcript { contentType, lines := [Transcript.line "tag" none (some tag)] }

/-- Puts a layer around what is written. -/
def wrap (l : Layer) (e : Encoder) : Encoder :=
  { e with layers := l :: e.layers }

def output (e : Encoder) (contentType : String) : Output :=
  { draft := e.format.draft contentType, layers := e.layers }

end Encoder

abbrev Encoders := Registry Encoder

namespace Encoders

def stock : Encoders := ⟨[
  (ContentType.json, .json),
  (ContentType.plainText, .text),
  (ContentType.form, .form),
  (ContentType.multipart, .multipart)]⟩

def register (r : Encoders) (e : Encoder) : Result Encoders :=
  r.insert e.contentType e

/-- A new payload. -/
def output (r : Encoders) (contentType : String) : Result Output := do
  let (key, e) ← r.find contentType
  return e.output key

end Encoders

end Marshal
