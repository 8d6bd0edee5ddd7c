import Marshal.Multipart.Body
import Marshal.Writing

/-!
How a multipart body is written: for each part a line with the boundary, two lines that describe the
part, an empty line and the content; then the boundary once more, closed.
-/

namespace Marshal

/-- The lines before the content of a part. -/
def Part.header {M : Type} (boundary : String) (p : Part M) : Script := [
  .ok (.string none (some ("--" ++ boundary))),
  .ok (.string (some "Content-Type") (some p.contentType)),
  .ok (.string (some "Content-Disposition") (some ("form-data; name=\"" ++ p.name ++ "\"" ++
    match p.fileName with
    | some f => "; filename=\"" ++ f ++ "\""
    | none => ""))),
  .ok (.string none (some ""))]

namespace MultipartBody

variable {M : Type}

/-- The bytes of a part. A model is written to a payload of its own. -/
def contentBytes (encoders : Encoders) (contentType : String) :
    PartContent (Outgoing M) → WriteM (Result Bytes × PartContent M)
  | .text s => return (.ok (Bytes.ofString s), .text s)
  | .binary b => return (.ok b, .binary b)
  | .object o => do
    match encoders.output contentType with
    | .error e => return (.error e, .object o.model)
    | .ok out =>
      Output.aside out.draft out.layers do
        let (r, m) ← o.write none
        match r with
        | .error e => return (.error e, .object m)
        | .ok () => return (← Output.finish, .object m)

def writeContent (encoders : Encoders) (contentType : String)
    (c : PartContent (Outgoing M)) : WriteM (Result Unit × PartContent M) := do
  let (r, c) ← contentBytes encoders contentType c
  match r with
  | .error e => return (.error e, c)
  | .ok b =>
    return (← Output.run [.ok (.bytes none (some b)), .ok (.string none (some ""))], c)

/-- A part that has not been written. -/
def unsent (p : Part (Outgoing M)) : Part M :=
  { p with content := match p.content with
    | .object o => .object o.model
    | .text s => .text s
    | .binary b => .binary b }

def writePart (boundary : String) (encoders : Encoders) (p : Part (Outgoing M)) :
    WriteM (Result Unit × Part M) := do
  match ← Output.run (p.header boundary) with
  | .error e => return (.error e, unsent p)
  | .ok () =>
    let (r, content) ← writeContent encoders p.contentType p.content
    return (r, { p with content })

/-- Writes the parts up to the first error. -/
def writeParts (boundary : String) (encoders : Encoders) :
    Members (Part (Outgoing M)) → WriteM (Result Unit × Members (Part M))
  | [] => return (.ok (), [])
  | (key, p) :: ps => do
    let (r, p) ← writePart boundary encoders p
    match r with
    | .error e => return (.error e, (key, p) :: Members.mapValues unsent ps)
    | .ok () =>
      let (r, ps) ← writeParts boundary encoders ps
      return (r, (key, p) :: ps)

/-- Writes a body whose models are ready to be written, where `b` is the body itself. -/
def write (parts : Members (Part (Outgoing M))) (key : Option String) (b : MultipartBody M) :
    WriteM (Result Unit × MultipartBody M) :=
  (Writing.object key .multipartBody (fun _ => {}) (fun _ b => b) do
    if parts.isEmpty then throw (.invalidArgument .noParts)
    .component (writeParts b.boundary b.encoders parts) fun parts b => { b with parts }
    .call (.string none (some ("--" ++ b.boundary ++ "--")))).exec b

end MultipartBody

end Marshal
