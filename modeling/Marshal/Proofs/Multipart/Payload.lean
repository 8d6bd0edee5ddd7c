import Marshal.Proofs.Json.Node
import Marshal.Proofs.Multipart.Header
import Marshal.Proofs.Writing.Log

/-!
Whole multipart payloads. What the writer makes of a body, a reader takes apart into the parts that
went in, in their order, where the contents do not look like the boundary.
-/

namespace Marshal

theorem AnyDraft.run_multipart (s : Script) (d : MultipartDraft) :
    Draft.run s (AnyDraft.multipart d) =
      ((Draft.run s d).1, .multipart (Draft.run s d).2) := by
  induction s generalizing d with
  | nil => rfl
  | cons c s ih =>
      cases c with
      | error e => rfl
      | ok c =>
          have hcall : Draft.call c (AnyDraft.multipart d) =
              ((Draft.call c d).1, .multipart (Draft.call c d).2) := rfl
          rw [Draft.run, Draft.run, hcall]
          rcases Draft.call c d with ⟨r, d'⟩
          cases r with
          | error e => rfl
          | ok _ => exact ih d'

open Multipart
open MultipartDraft (lineEnd)

namespace MultipartDraft

theorem append_append (d : MultipartDraft) (a b : Bytes) :
    (d.append a).append b = d.append (a ++ b) := by
  simp [append, List.append_assoc]

end MultipartDraft

namespace Part

/-- The bytes of the content of a part, where a model is written to a payload by itself. -/
def alone (encoders : Encoders) (p : Part AnyModel) : Result Bytes :=
  match p.content with
  | .text s => .ok (Bytes.ofString s)
  | .binary b => .ok b
  | .object m =>
    (({ encoders } : Serializer).send p.contentType m (fun _ => none)
      (m.outgoing.write none)).result.map (·.bytes)

def received (encoders : Encoders) (p : Part AnyModel) : Result BodyPart := do
  return {
    contentType := p.contentType
    name := p.name
    fileName := p.fileName
    content := ← p.alone encoders }

theorem log_of_output {encoders : Encoders} {contentType : String} {o : Output}
    (h : encoders.output contentType = .ok o) : o.log = [] := by
  rw [Encoders.output] at h
  cases hf : encoders.find contentType with
  | error e =>
      rw [hf] at h
      cases h
  | ok found =>
      rw [hf] at h
      cases h
      rfl

/-- A model ends within a body as it does by itself, whatever has been logged before. -/
theorem run_contentBytes_alone (encoders : Encoders) (p : Part AnyModel) (o : Output) :
    ∃ (content : PartContent AnyModel) (log : Log),
      (MultipartBody.contentBytes encoders p.contentType
        (AnyModel.outgoingContent p.content)).run o =
        ((p.alone encoders, content), { o with log }) := by
  rw [alone]
  cases p.content with
  | text s => exact ⟨_, o.log, rfl⟩
  | binary b => exact ⟨_, o.log, rfl⟩
  | object m =>
      rw [AnyModel.outgoingContent, MultipartBody.contentBytes]
      cases hout : encoders.output p.contentType with
      | error e =>
          have ho : ({ encoders } : Serializer).output p.contentType = .error e :=
            (Serializer.output_eq ..).trans hout
          dsimp only
          rw [Serializer.send_of_output_error ho]
          exact ⟨_, o.log, rfl⟩
      | ok out =>
          have ho : ({ encoders } : Serializer).output p.contentType = .ok out :=
            (Serializer.output_eq ..).trans hout
          obtain ⟨r, m', out', hwrite⟩ :
              ∃ r m' out', (m.outgoing.write none).run out = ((r, m'), out') := ⟨_, _, _, rfl⟩
          have haside {c : Result Bytes} {out'' : Output}
              (hrun : _ = ((c, PartContent.object m'), out'')) :=
            (MultipartBody.appends_finished (AnyModel.appends_outgoing m)).run_aside
              (log_of_output hout) ((WriteM.run_bind_of hwrite _).trans hrun) o
          dsimp only
          rw [Serializer.map_bytes_send ho hwrite]
          cases r with
          | error e =>
              obtain ⟨log, hlog⟩ := haside rfl
              exact ⟨.object m', log, hlog⟩
          | ok _ =>
              have hfinish : (do
                  return (← Output.finish, PartContent.object m') : WriteM _).run out' =
                  (((Output.finish.run out').1, .object m'), (Output.finish.run out').2) := rfl
              obtain ⟨log, hlog⟩ := haside hfinish
              exact ⟨.object m', log, hlog⟩

/-- A model has the same bytes within a body, whatever has been logged before. -/
theorem run_contentBytes {encoders : Encoders} {p : Part AnyModel} {c : Bytes}
    (h : p.alone encoders = .ok c) (o : Output) :
    ∃ (content : PartContent AnyModel) (log : Log),
      (MultipartBody.contentBytes encoders p.contentType
        (AnyModel.outgoingContent p.content)).run o =
        ((.ok c, content), { o with log }) := by
  rw [← h]
  exact run_contentBytes_alone encoders p o

end Part

namespace AnyModel

def framed (boundary : String) (p : Part AnyModel) (content : Bytes) : Bytes :=
  dashed boundary ++ (lineEnd ++ (headerLines p.fields ++ (content ++ lineEnd)))

theorem run_header (p : Part AnyModel) (boundary : String) (d : MultipartDraft) (ls : List Layer)
    (log : Log) :
    (Output.run (Part.header boundary
        ⟨p.name, p.contentType, p.fileName, outgoingContent p.content⟩)).run
        ⟨.multipart d, ls, log⟩ =
      (.ok (), ⟨.multipart (d.append (dashed boundary ++ (lineEnd ++ headerLines p.fields))), ls,
        log⟩) := by
  rw [Output.run_run, AnyDraft.run_multipart, Part.run_header]
  rfl

theorem run_writePart {encoders : Encoders} {p : Part AnyModel} {c : Bytes}
    (h : p.alone encoders = .ok c) (boundary : String) (d : MultipartDraft) (ls : List Layer)
    (log : Log) :
    ∃ (p' : Part AnyModel) (log' : Log),
      (MultipartBody.writePart boundary encoders
          ⟨p.name, p.contentType, p.fileName, outgoingContent p.content⟩).run
          ⟨.multipart d, ls, log⟩ =
        ((.ok (), p'), ⟨.multipart (d.append (framed boundary p c)), ls, log'⟩) := by
  obtain ⟨content, log', hcontent⟩ := Part.run_contentBytes h
    ⟨.multipart (d.append (dashed boundary ++ (lineEnd ++ headerLines p.fields))), ls, log⟩
  have hlines (d : MultipartDraft) :
      Draft.run [.ok (.bytes none (some c)), .ok (.string none (some ""))] (AnyDraft.multipart d) =
        (.ok (), .multipart (d.append (c ++ lineEnd))) := by
    have hrun : Draft.run [.ok (.bytes none (some c)), .ok (.string none (some ""))] d =
        (.ok (), (d.append c).append (Bytes.ofString "" ++ lineEnd)) := rfl
    rw [AnyDraft.run_multipart, hrun, MultipartDraft.append_append]
    rfl
  have hwrite : (MultipartBody.writeContent encoders p.contentType
      (outgoingContent p.content)).run
        ⟨.multipart (d.append (dashed boundary ++ (lineEnd ++ headerLines p.fields))), ls, log⟩ =
      ((.ok (), content), ⟨.multipart (d.append (framed boundary p c)), ls, log'⟩) := by
    rw [MultipartBody.writeContent, WriteM.run_bind_of hcontent]
    have hrun := Output.run_run [.ok (.bytes none (some c)), .ok (.string none (some ""))]
      ⟨.multipart (d.append (dashed boundary ++ (lineEnd ++ headerLines p.fields))), ls, log'⟩
    have hassoc : dashed boundary ++ (lineEnd ++ headerLines p.fields) ++ (c ++ lineEnd) =
        framed boundary p c := by
      simp [framed, List.append_assoc]
    rw [hlines, MultipartDraft.append_append, hassoc] at hrun
    exact WriteM.run_bind_of hrun fun r => pure (r, content)
  refine ⟨{ p with content }, log', ?_⟩
  rw [MultipartBody.writePart, WriteM.run_bind_of (run_header p boundary d ls log)]
  exact WriteM.run_bind_of hwrite _

/-- The parts of a body are written one after the other. -/
theorem run_writeParts {encoders : Encoders} (boundary : String)
    {parts : List (String × Part AnyModel)} {cs : List Bytes}
    (h : List.Forall₂ (fun p c => p.2.alone encoders = .ok c) parts cs) (d : MultipartDraft)
    (ls : List Layer) (log : Log) :
    ∃ (parts' : Members (Part AnyModel)) (log' : Log),
      (MultipartBody.writeParts boundary encoders (outgoingParts parts)).run
          ⟨.multipart d, ls, log⟩ =
        ((.ok (), parts'), ⟨.multipart (d.append
          ((parts.zip cs).flatMap fun (p, c) => framed boundary p.2 c)), ls, log'⟩) := by
  induction h generalizing d log with
  | nil => exact ⟨[], log, by simp [MultipartDraft.append]; rfl⟩
  | @cons p c parts cs hp _ ih =>
      obtain ⟨key, name, contentType, fileName, content⟩ := p
      obtain ⟨p', log', hwrite⟩ := run_writePart hp boundary d ls log
      obtain ⟨parts', log'', hrest⟩ := ih (d.append (framed boundary _ c)) log'
      refine ⟨(key, p') :: parts', log'', ?_⟩
      rw [outgoingParts, MultipartBody.writeParts, WriteM.run_bind_of hwrite]
      refine (WriteM.run_bind_of hrest _).trans ?_
      rw [MultipartDraft.append_append, List.zip_cons_cons, List.flatMap_cons]
      rfl

def payload (boundary : String) (parts : List (Part AnyModel × Bytes)) : Bytes :=
  parts.flatMap (fun (p, c) => framed boundary p c) ++ (dashed boundary ++ ([45, 45] ++ lineEnd))

theorem closing_line (boundary : String) :
    Bytes.ofString ("--" ++ boundary ++ "--") ++ lineEnd =
      dashed boundary ++ ([45, 45] ++ lineEnd) := by
  have hdashes : Bytes.ofString "--" = [45, 45] := rfl
  rw [dashed, Bytes.ofString_append, hdashes, List.append_assoc]

/-- What is written within the object of a body. -/
theorem runAt_members {b : AnyBody} {cs : List Bytes}
    (h : List.Forall₂ (fun p c => p.2.alone b.encoders = .ok c) b.parts cs) :
    ∃ (parts' : Members (Part AnyModel)) (log : Log),
      Writing.runAt (do
        .component (MultipartBody.writeParts b.boundary b.encoders (outgoingParts b.parts))
          fun parts b => { b with parts }
        .call (.string none (some ("--" ++ b.boundary ++ "--"))) : Writing AnyBody Unit) b
          ⟨.multipart { depth := 1 }, [], []⟩ =
        ((.ok (), { b with parts := parts' }),
          ⟨.multipart { bytes := payload b.boundary (b.list.zip cs), depth := 1 }, [], log⟩) := by
  obtain ⟨parts', log, hparts⟩ := run_writeParts b.boundary h { depth := 1 } [] []
  refine ⟨parts', log, ?_⟩
  have hcomponent : (Writing.component
      (MultipartBody.writeParts b.boundary b.encoders (outgoingParts b.parts))
      fun parts (b : AnyBody) => { b with parts }).runAt b ⟨.multipart { depth := 1 }, [], []⟩ =
      ((.ok (), { b with parts := parts' }), ⟨.multipart (({ depth := 1 } : MultipartDraft).append
        ((b.parts.zip cs).flatMap fun (p, c) => framed b.boundary p.2 c)), [], log⟩) := by
    rw [Writing.runAt_component, hparts]
  have hzip : (b.parts.zip cs).flatMap (fun (p, c) => framed b.boundary p.2 c) =
      (b.list.zip cs).flatMap fun (p, c) => framed b.boundary p c := by
    rw [MultipartBody.list, List.zip_map_left, List.flatMap_map]
    rfl
  rw [Writing.runAt_bind_ok hcomponent, Writing.runAt_call]
  show ((_, _), (⟨.multipart ((({ depth := 1 } : MultipartDraft).append _).append
    (Bytes.ofString ("--" ++ b.boundary ++ "--") ++ lineEnd)), [], log⟩ : Output)) = _
  rw [closing_line, hzip, MultipartDraft.append_append]
  rfl

theorem isEmpty_outgoingParts (parts : List (String × Part AnyModel)) :
    (outgoingParts parts).isEmpty = parts.isEmpty := by
  cases parts <;> rfl

theorem run_write {b : AnyBody} {cs : List Bytes} (hne : b.parts ≠ [])
    (h : List.Forall₂ (fun p c => p.2.alone b.encoders = .ok c) b.parts cs) :
    ∃ (b' : AnyBody) (log : Log),
      (MultipartBody.write (outgoingParts b.parts) none b).run ⟨.multipart {}, [], []⟩ =
          ((.ok (), b'), ⟨.multipart { bytes := payload b.boundary (b.list.zip cs) }, [], log⟩) ∧
        b'.boundary = b.boundary := by
  obtain ⟨parts', log, hmembers⟩ := runAt_members h
  refine ⟨{ b with parts := parts' }, log, ?_, rfl⟩
  have hempty : (outgoingParts b.parts).isEmpty = false := by
    rw [isEmpty_outgoingParts]
    exact List.isEmpty_eq_false_iff.mpr hne
  have hstart : Draft.call (.startObject none .multipartBody) (AnyDraft.multipart {}) =
      (.ok (), .multipart { depth := 1 }) := rfl
  have hend : Draft.call .endObject (AnyDraft.multipart
        { bytes := payload b.boundary (b.list.zip cs), depth := 1 }) =
      (.ok (), .multipart { bytes := payload b.boundary (b.list.zip cs) }) := rfl
  rw [MultipartBody.write, hempty]
  exact Writing.runAt_object_ok (o := ⟨.multipart {}, [], []⟩) Layer.quiet_nil none
    .multipartBody (fun _ : AnyBody => {}) (fun _ b => b) hstart hmembers rfl hend

/-! ### Reading -/

def bodyPart (p : Part AnyModel) (content : Bytes) : BodyPart :=
  ⟨p.contentType, p.name, p.fileName, content⟩

theorem bodyPart?_fields {p : Part AnyModel} (hp : p.Plain) (c : Bytes) :
    bodyPart? p.fields c = some (bodyPart p c) := by
  have hdisposition := (p.plain_iff.mp hp).2
  have hfile : p.parameters.lookup "filename" = p.fileName := by
    rw [Part.parameters]
    cases p.fileName <;> simp [List.lookup_cons]
  have hname : p.parameters.lookup "name" = some p.name := by
    simp [Part.parameters]
  simp [bodyPart?, Part.fields, List.lookup_cons, hdisposition, hname, hfile, bodyPart]

def opened (boundary : String) : List (Part AnyModel × Bytes) → Bytes
  | [] => [45, 45] ++ lineEnd
  | (p, c) :: ps =>
    lineEnd ++ (headerLines p.fields ++ (c ++ (delimiter boundary ++ opened boundary ps)))

theorem payload_eq (boundary : String) (ps : List (Part AnyModel × Bytes)) :
    payload boundary ps = dashed boundary ++ opened boundary ps := by
  induction ps with
  | nil => rfl
  | cons p ps ih =>
      rw [payload, List.flatMap_cons, List.append_assoc]
      rw [payload] at ih
      rw [ih]
      simp [framed, opened, delimiter, List.append_assoc]

theorem parts?_opened {boundary : String} (hboundary : '\r' ∉ boundary.toList)
    {ps : List (Part AnyModel × Bytes)}
    (h : ∀ p ∈ ps, p.1.Plain ∧ ¬ dashed boundary <:+: p.2) :
    parts? boundary (opened boundary ps) = some (ps.map fun (p, c) => bodyPart p c) := by
  induction ps with
  | nil => exact parts?_closed boundary
  | cons p ps ih =>
      obtain ⟨⟨hplain, hcontent⟩, hps⟩ := List.forall_mem_cons.mp h
      have hfields := fun f hf =>
        And.intro (p.1.not_mem_colon_fields f hf) ((p.1.plain_iff.mp hplain).1 f hf)
      exact parts?_part hboundary hfields hcontent (bodyPart?_fields hplain p.2) (ih hps)

theorem received_eq_ok_iff {encoders : Encoders} {p : Part AnyModel} {r : BodyPart} :
    p.received encoders = .ok r ↔ p.alone encoders = .ok r.content ∧ bodyPart p r.content = r := by
  rw [Part.received]
  cases p.alone encoders with
  | error e => simp [bind, Except.bind]
  | ok c =>
      obtain ⟨contentType, name, fileName, content⟩ := r
      simp only [bind, Except.bind, pure, Except.pure, bodyPart, Except.ok.injEq,
        BodyPart.mk.injEq, and_true]
      tauto

theorem map_bodyPart_zip {encoders : Encoders} {ps : List (Part AnyModel)} {rs : List BodyPart}
    (h : List.Forall₂ (fun p r => p.received encoders = .ok r) ps rs) :
    (ps.zip (rs.map (·.content))).map (fun (p, c) => bodyPart p c) = rs := by
  induction h with
  | nil => rfl
  | cons h _ ih =>
      rw [List.map_cons, List.zip_cons_cons, List.map_cons, ih]
      exact congrArg (· :: _) (received_eq_ok_iff.mp h).2

end AnyModel

namespace MultipartBody

open AnyModel

variable {s : Serializer} {contentType key : String} {b : AnyBody} {received : List BodyPart}

/-- A body whose parts are plain and whose contents do not look like its boundary is written, and a
reader finds its parts in the payload, in their order, and nothing else. -/
theorem split?_serialize (hc : s.encoders.find contentType = .ok (key, .multipart))
    (hne : b.parts ≠ []) (hboundary : '\r' ∉ b.boundary.toList)
    (hplain : ∀ p ∈ b.list, p.Plain)
    (hreceived : List.Forall₂ (fun p r => p.received b.encoders = .ok r) b.list received)
    (hcontent : ∀ r ∈ received, ¬ Bytes.ofString ("--" ++ b.boundary) <:+: r.content) :
    ∃ payload : Bytes,
      (s.serialize contentType b).result = .ok ⟨b.contentType, payload⟩ ∧
        split? b.boundary payload = some received := by
  have halone : List.Forall₂ (fun p c => p.2.alone b.encoders = .ok c) b.parts
      (received.map (·.content)) := by
    have hparts := hreceived
    rw [list, List.forall₂_map_left_iff] at hparts
    rw [List.forall₂_map_right_iff]
    exact hparts.imp fun _ _ h => (received_eq_ok_iff.mp h).1
  have hzip := map_bodyPart_zip hreceived
  obtain ⟨b', log, hrun, hb'⟩ := run_write hne halone
  refine ⟨payload b.boundary (b.list.zip (received.map (·.content))), ?_, ?_⟩
  · have hout : Encoder.multipart.output key = ⟨.multipart {}, [], []⟩ := rfl
    have hwrite : ((Writable.outgoing b).write none).run (Encoder.multipart.output key) =
        ((.ok (), b'), ⟨.multipart
          { bytes := payload b.boundary (b.list.zip (received.map (·.content))) }, [], log⟩) :=
      hrun
    have htype : b'.contentType = b.contentType :=
      congrArg ("multipart/form-data; boundary=" ++ ·) hb'
    rw [Serializer.serialize, Serializer.send, Serializer.output_of_find hc]
    simp only [hwrite]
    show Except.ok (⟨b'.contentType, _⟩ : Payload) = _
    rw [htype]
  · have hparts : parts? b.boundary (opened b.boundary (b.list.zip (received.map (·.content)))) =
        some received := by
      rw [parts?_opened hboundary ?_, hzip]
      rintro ⟨p, c⟩ hmem
      obtain ⟨hp, hc⟩ := List.of_mem_zip hmem
      obtain ⟨r, hr, rfl⟩ := List.mem_map.mp hc
      exact ⟨hplain p hp, hcontent r hr⟩
    rw [split?, payload_eq, Bytes.dropPrefix?_eq_some_iff.mpr rfl]
    exact hparts

def parcel : AnyBody where
  boundary := "frontier"
  parts := [
    ("note", ⟨"note", "text/plain", none, .text "\r\n--front\r\n--\r\n"⟩),
    ("photo", ⟨"Photo", "image/png", some "cat; name=1.png", .binary [13, 10, 45, 45]⟩),
    ("card", ⟨"card", ContentType.json, none, .object (.contact { name := some "Jane" })⟩)]

def parcelParts : List BodyPart := [
  ⟨"text/plain", "note", none, Bytes.ofString "\r\n--front\r\n--\r\n"⟩,
  ⟨"image/png", "Photo", some "cat; name=1.png", [13, 10, 45, 45]⟩,
  ⟨ContentType.json, "card", none, Bytes.ofString "\x7b\"name\":\"Jane\"\x7d"⟩]

theorem split?_serialize_parcel :
    ∃ payload : Bytes,
      (({} : Serializer).serialize ContentType.multipart parcel).result =
          .ok ⟨parcel.contentType, payload⟩ ∧
        split? parcel.boundary payload = some parcelParts := by
  have hnames : ∀ p ∈ parcel.list, '\r' ∉ p.contentType.toList ∧
      ('\r' ∉ p.name.toList ∧ '"' ∉ p.name.toList) ∧
      ∀ f ∈ p.fileName, '\r' ∉ f.toList ∧ '"' ∉ f.toList := by
    decide +kernel
  have hplain : ∀ p ∈ parcel.list, p.Plain := by
    intro p hp
    obtain ⟨htype, hname, hfile⟩ := hnames p hp
    exact ⟨Text.not_cons_infix htype, hname.imp_left Text.not_cons_infix,
      fun f hf => (hfile f hf).imp_left Text.not_cons_infix⟩
  have hok {p : Part AnyModel} {r : BodyPart} (h : (p.received .stock).toOption = some r) :
      p.received .stock = .ok r := by
    cases hp : p.received .stock with
    | error e => rw [hp] at h; cases h
    | ok q => rw [hp] at h; cases h; rfl
  have hreceived : List.Forall₂ (fun p r => p.received parcel.encoders = .ok r) parcel.list
      parcelParts :=
    .cons (hok (by decide +kernel)) (.cons (hok (by decide +kernel))
      (.cons (hok (by decide +kernel)) .nil))
  have hc : Encoders.stock.find ContentType.multipart = .ok (ContentType.multipart, .multipart) :=
    rfl
  exact split?_serialize hc (List.cons_ne_nil _ _) (by decide) hplain hreceived
    (by decide +kernel)

end MultipartBody

end Marshal
