import Marshal.Proofs.Employee.Trace
import Marshal.Proofs.Profile.Trace

/-!
Whole payloads between layers that only record. What they log is well nested: the events of a model
lie around those of the models within it, and those of the layer that was put on last come first.
-/

namespace Marshal

namespace Serializer

variable {s : Serializer} {os : List Observer}

/-- A model is written in the steps of `piece` and the events woven into them; once there is a
payload, the log is made of these events. -/
def Weaves {α : Type} [Writable α] (s : Serializer) (os : List Observer) (contentType : String)
    (a : α) (piece : Piece) : Prop :=
  s.serialize contentType a =
      s.send contentType a Writable.payloadType? (Step.leaving a (piece.steps os.reverse)) ∧
    ∀ p, (s.serialize contentType a).result = .ok p →
      (s.serialize contentType a).log = piece.trace os.reverse

theorem weaves_of_performs {r : Encoders} {contentType key : String}
    (hs : s.encoders = r.observed os) (hr : r.find contentType = .ok (key, .json)) {α : Type}
    [Writable α] {a : α} {piece : Piece}
    (h : WriteM.Performs os.reverse ((Writable.outgoing a).write none) (·, a)
      (piece.steps os.reverse)) : s.Weaves os contentType a piece := by
  have hsend : s.serialize contentType a = _ := send_eq_of_performs hs hr h
  refine ⟨hsend, fun p hp => ?_⟩
  rw [hsend] at hp ⊢
  rw [log_send_leaving hs hr hp, Piece.events_steps]

/-- What a payload that can be read leaves in the log follows its document. -/
theorem recorded_of_deserialize {d : Decoders} {contentType key : String} {maxDepth : Nat}
    (hos : ∀ o ∈ os, o.Records) (hs : s.decoders = d.observed os)
    (hd : d.find contentType = .ok (key, .json maxDepth)) {t : ModelType} {outline : Outline}
    (ho : outline.Fits t.Carrier) {content : Bytes} {factory : Factory t.Carrier}
    {found : Option t.Carrier} {log : Log}
    (h : (s.deserialize t contentType content factory).exec = (.ok found, log)) :
    ∃ v, content.text?.bind Json.ofString? = some v ∧
      outline.Recorded t.Carrier os.reverse v found log := by
  have hf := Decoders.find_observed hd os
  rw [← hs] at hf
  have hls : ∀ o ∈ os.reverse, o.Records := fun o ho => hos o (List.mem_reverse.mp ho)
  refine ReadM.Logs.of_exec (P := fun found log => ∃ v, content.text?.bind Json.ofString? = some v ∧
    outline.Recorded t.Carrier os.reverse v found log) (ReadM.logs_ofResult_bind fun r hr => ?_) h
  obtain ⟨v, hv, rfl⟩ := (root_ok_iff hf rfl).mp hr
  refine (Outline.logs_readAt ho hls rfl (v.rank + 1) factory { value := v, maxDepth }
    (Nat.lt_succ_self _)).mono fun found l hl => ⟨v, hv, hl⟩

/-- Layers that only record leave a well-nested trace, on writing and on reading, around every
employee and every profile of a tree. -/
theorem nested_trace (hos : ∀ o ∈ os, o.Records) {w : Encoders} {r : Decoders}
    {target source key key' : String} {maxDepth : Nat} (hw : s.encoders = w.observed os)
    (ht : w.find target = .ok (key, .json)) (hr : s.decoders = r.observed os)
    (hsource : r.find source = .ok (key', .json maxDepth)) :
    (∀ e : Employee, s.Weaves os target e (e.piece none)) ∧
      (∀ p : Profile, s.Weaves os target p (p.piece none)) ∧
      (∀ content factory found log,
        (s.deserialize .employee source content factory).exec = (.ok found, log) →
        ∃ v, content.text?.bind Json.ofString? = some v ∧
          Employee.outline.Recorded Employee os.reverse v found log) ∧
      ∀ content factory found log,
        (s.deserialize .profile source content factory).exec = (.ok found, log) →
        ∃ v, content.text?.bind Json.ofString? = some v ∧
          Profile.outline.Recorded Profile os.reverse v found log := by
  have hls : ∀ o ∈ os.reverse, o.Records := fun o ho => hos o (List.mem_reverse.mp ho)
  refine ⟨fun e => ?_, fun p => ?_, fun _ _ _ _ h => ?_, fun _ _ _ _ h => ?_⟩
  · exact weaves_of_performs hw ht
      (Outgoing.performs_ofUnmarked e (Employee.performs_write hls e none))
  · exact weaves_of_performs hw ht (Profile.performs_write hls p none)
  · exact recorded_of_deserialize hos hr hsource (t := .employee) Employee.fits_outline h
  · exact recorded_of_deserialize hos hr hsource (t := .profile) Profile.fits_outline h

def watched : List Observer := [
  { label := "inner", before := true, after := true },
  { label := "outer", start := true, after := true, writes := false }]

def watching : Serializer where
  encoders := Encoders.stock.observed watched
  decoders := Decoders.stock.observed watched

theorem records_watched : ∀ o ∈ watched, o.Records := by
  simp only [watched, List.forall_mem_cons]
  exact ⟨⟨fun _ => rfl, nofun⟩, ⟨fun _ => rfl, fun _ => rfl⟩, List.forall_mem_nil _⟩

def lead : Employee :=
  ⟨{}, some .empty, none, [("desk", .integer 7)]⟩

def reportsJson : Json := .object [
  ("reports", .array [.null, .object []]),
  ("manager", .null)]

def reportsProfile : Profile :=
  ⟨true, false, [
    ⟨"reports", true, .models [⟨true, false, []⟩]⟩,
    ⟨"manager", true, .null⟩]⟩

set_option maxRecDepth 20000 in
theorem serialize_lead :
    (watching.serialize ContentType.json lead).result =
      .ok ⟨ContentType.json, Bytes.ofString (Json.object [
        ("manager", .object []), ("desk", .number "7")]).text⟩ := by
  rfl

set_option maxRecDepth 20000 in
theorem ofString?_reportsJson : Json.ofString? reportsJson.text = some reportsJson := by
  rfl

theorem root_reports :
    watching.root ContentType.json (Bytes.ofString reportsJson.text) =
      .ok ⟨.json { value := reportsJson }, watched.reverse.map .observer⟩ := by
  have hf : watching.decoders.find ContentType.json = _ :=
    Decoders.find_observed Decoders.find_stock_json watched
  exact root_of_text hf rfl ofString?_reportsJson

set_option maxRecDepth 20000 in
theorem deserialize_reports :
    (watching.deserialize .profile ContentType.json (Bytes.ofString reportsJson.text)
      Parsable.create).exec = (.ok (some reportsProfile), [
        ⟨"inner", .before, { dirty := some [] }⟩,
        ⟨"inner", .before, { dirty := some [] }⟩,
        ⟨"outer", .after, { dirty := some [] }⟩,
        ⟨"inner", .after, { dirty := some [] }⟩,
        ⟨"outer", .after, { dirty := some ["reports", "manager"] }⟩,
        ⟨"inner", .after, { dirty := some ["reports", "manager"] }⟩]) := by
  rw [deserialize, root_reports]
  rfl

theorem nested_trace_watching :
    (watching.serialize ContentType.json lead).log = [
      ⟨"inner", .before, { extra := some 1 }⟩,
      ⟨"outer", .start, { extra := some 1 }⟩,
      ⟨"inner", .before, { extra := some 0 }⟩,
      ⟨"outer", .start, { extra := some 0 }⟩,
      ⟨"outer", .after, { extra := some 0 }⟩,
      ⟨"inner", .after, { extra := some 0 }⟩,
      ⟨"outer", .after, { extra := some 1 }⟩,
      ⟨"inner", .after, { extra := some 1 }⟩] ∧
      ∃ v, (Bytes.ofString reportsJson.text).text?.bind Json.ofString? = some v ∧
        Profile.outline.Recorded Profile watched.reverse v (some reportsProfile) [
          ⟨"inner", .before, { dirty := some [] }⟩,
          ⟨"inner", .before, { dirty := some [] }⟩,
          ⟨"outer", .after, { dirty := some [] }⟩,
          ⟨"inner", .after, { dirty := some [] }⟩,
          ⟨"outer", .after, { dirty := some ["reports", "manager"] }⟩,
          ⟨"inner", .after, { dirty := some ["reports", "manager"] }⟩] := by
  obtain ⟨hemployees, -, -, hprofiles⟩ := nested_trace (s := watching) records_watched rfl
    Encoders.find_stock_json rfl Decoders.find_stock_json
  exact ⟨(hemployees lead).2 _ serialize_lead, hprofiles _ _ _ _ deserialize_reports⟩

end Serializer

end Marshal
