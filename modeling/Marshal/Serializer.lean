import Marshal.Decoder
import Marshal.Encoder
import Marshal.Models.ModelType

/-!
Reading and writing whole payloads by content type.
-/

namespace Marshal

/-- A finished payload. -/
structure Payload where
  contentType : String
  bytes : Bytes
  deriving DecidableEq

/-- The text of a payload, if it is one. -/
def Payload.text (p : Payload) : Result String :=
  match p.bytes.text? with
  | some s => .ok s
  | none => .error (.format .notUtf8)

structure Serializer where
  encoders : Encoders := .stock
  decoders : Decoders := .stock
  discriminators : ModelDiscriminators := .stock

/-- What came of writing: the payload or an error, the model as it is then, and what was logged. -/
structure Sent (α : Type) where
  result : Result Payload
  model : α
  log : Log

namespace Serializer

/-- A new payload of a content type. -/
def output (s : Serializer) (contentType : String) : Result Output := do
  let _ ← ContentType.normalize contentType
  s.encoders.output contentType

/-- Writes with `act` to a new payload, which has its own content type unless the model names one.
-/
def send {α : Type} (s : Serializer) (contentType : String) (a : α)
    (payloadType? : α → Option String) (act : WriteM (Result Unit × α)) : Sent α :=
  match s.output contentType with
  | .error e => ⟨.error e, a, []⟩
  | .ok out =>
    match act.run out with
    | ((.error e, a), out) => ⟨.error e, a, out.log⟩
    | ((.ok (), a), out) =>
      match Output.finish.run out with
      | (.error e, out) => ⟨.error e, a, out.log⟩
      | (.ok bytes, out) =>
        ⟨.ok ⟨(payloadType? a).getD out.draft.contentType, bytes⟩, a, out.log⟩

def serialize {α : Type} [Writable α] (s : Serializer) (contentType : String) (a : α) : Sent α :=
  s.send contentType a Writable.payloadType? ((Writable.outgoing a).write none)

def serializeList {α : Type} [Writable α] (s : Serializer) (contentType : String) (as : List α) :
    Sent (List α) :=
  s.send contentType as (fun _ => none) (Outgoing.writeList none (as.map Writable.outgoing))

/-- The root of a payload. -/
def root (s : Serializer) (contentType : String) (content : Bytes) : Result Root := do
  let _ ← ContentType.normalize contentType
  s.decoders.root contentType content

/-- How models of type `t` below a root are made. -/
def context (s : Serializer) (t : ModelType) (r : Root) : Reading.Context t.Carrier where
  layers := r.layers
  resolve := s.discriminators.resolve t

/-- Reads a model; a payload that is null has none. -/
def deserialize (s : Serializer) (t : ModelType) (contentType : String) (content : Bytes)
    (factory : Factory t.Carrier) : ReadM (Option t.Carrier) := do
  let r ← ReadM.ofResult (s.root contentType content)
  Parsable.read? (s.context t r) factory r.node

/-- Reads a list of models; a payload that is null is an empty list. -/
def deserializeList (s : Serializer) (t : ModelType) (contentType : String) (content : Bytes)
    (factory : Factory t.Carrier) : ReadM (List t.Carrier) := do
  let r ← ReadM.ofResult (s.root contentType content)
  return (← Parsable.readList? (s.context t r) factory r.node).getD []

end Serializer

end Marshal
