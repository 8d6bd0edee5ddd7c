import Marshal.Proofs.Employee.Reading
import Marshal.Proofs.Employee.Writing
import Marshal.Proofs.Receiving

/-!
Employees through whole JSON payloads and back, one at a time and in lists.
-/

namespace Marshal

namespace Employee

theorem puts_outgoing {e : Employee} (h : e.PutsJson) (key : Option String) :
    WriteM.Puts [] ((Writable.outgoing e).write key) key e e.json :=
  Outgoing.puts_ofUnmarked (h key)

theorem puts_writeList {es : List Employee} (h : ∀ e ∈ es, e.PutsJson) (key : Option String) :
    WriteM.Puts [] (Outgoing.writeList key (es.map Writable.outgoing)) key es
      (.array (jsonEach es)) := by
  rw [jsonEach_eq]
  exact Outgoing.puts_writeAll (fun e he => puts_outgoing (h e he) none) key

theorem output_of_find {contentType key : String}
    (hc : Encoders.stock.find contentType = .ok (key, .json)) :
    ({} : Serializer).output contentType = .ok ⟨.json {}, [], []⟩ := by
  have hfind : ({} : Serializer).encoders.find contentType = .ok (key, .json) := hc
  rw [Serializer.output_of_find hfind]
  rfl

/-- The payload of an employee. -/
theorem serialize_result {contentType key : String}
    (hc : Encoders.stock.find contentType = .ok (key, .json)) {e : Employee}
    (he : e.Everywhere Lasting) :
    (({} : Serializer).serialize contentType e).result =
      .ok ⟨ContentType.json, Bytes.ofString e.json.text⟩ :=
  congrArg Sent.result <| Serializer.send_of_puts (output_of_find hc)
    (puts_outgoing (putsJson (he.mono fun _ => Lasting.expressible)) none) e Writable.payloadType?

theorem serializeList_result {contentType key : String}
    (hc : Encoders.stock.find contentType = .ok (key, .json)) {es : List Employee}
    (hes : ∀ e ∈ es, e.Everywhere Portable) :
    (({} : Serializer).serializeList contentType es).result =
      .ok ⟨ContentType.json, Bytes.ofString (Json.array (jsonEach es)).text⟩ :=
  congrArg Sent.result <| Serializer.send_of_puts (output_of_find hc)
    (puts_writeList (fun e he => putsJson ((hes e he).mono fun _ h => h.lasting.expressible)) none)
    es fun _ => none

/-- The reading of one employee's object at the root of a document or in a list there. -/
theorem readAt_root (r : Root) (hr : r.layers = []) {e : Employee} (he : e.Everywhere Lasting)
    {n : JsonNode} (hn : n.value = e.json) (hroom : n.Room e.depth) :
    Parsable.read? (({} : Serializer).context .employee r) Parsable.create (.json n) =
      pure (some e.normalize) :=
  readAt_json hr (fun _ _ => rfl) he hn hroom (by rw [Node.rank, hn]; exact Nat.lt_succ_self _)

theorem deserialize_text {contentType key : String}
    (hc : Decoders.stock.find contentType = .ok (key, .json)) {text : String} {v : Json}
    (htext : Json.ofString? text = some v) :
    ({} : Serializer).deserialize .employee contentType (Bytes.ofString text) Parsable.create =
      Parsable.read? (({} : Serializer).context .employee ⟨.json { value := v }, []⟩)
        Parsable.create (.json { value := v }) := by
  rw [Serializer.deserialize, Serializer.root_of_find (s := {}) hc htext, ReadM.ofResult_ok,
    pure_bind]

theorem deserialize_json {contentType key : String}
    (hc : Encoders.stock.find contentType = .ok (key, .json)) {e : Employee}
    (he : e.Everywhere Lasting) (hdepth : e.depth ≤ 64)
    (htext : Json.ofString? e.json.text = some e.json) :
    (({} : Serializer).deserialize .employee contentType (Bytes.ofString e.json.text)
      Parsable.create).exec = (.ok (some e.normalize), []) := by
  have hroom : ({ value := e.json } : JsonNode).Room e.depth := by
    simpa [JsonNode.Room] using hdepth
  have hread := readAt_root ⟨.json { value := e.json }, []⟩ rfl he rfl hroom
  rw [deserialize_text (Decoders.find_of_encoders hc) htext]
  exact congrArg ReadM.exec hread

theorem deserializeList_json {contentType key : String}
    (hc : Encoders.stock.find contentType = .ok (key, .json)) {es : List Employee}
    (hes : ∀ e ∈ es, e.Everywhere Portable) (hdepth : depthEach es ≤ 64)
    (htext : Json.ofString? (Json.array (jsonEach es)).text = some (.array (jsonEach es))) :
    (({} : Serializer).deserializeList .employee contentType
      (Bytes.ofString (Json.array (jsonEach es)).text) Parsable.create).exec =
      (.ok (normalizeEach es), []) := by
  have hroot := Serializer.root_of_find (s := {}) (Decoders.find_of_encoders hc) htext
  have hroom : ∀ e ∈ es, ({ value := .array (jsonEach es) } : JsonNode).Room (e.depth + 1) := by
    intro e he
    have hlt := lt_depthEach he
    show 0 + (e.depth + 1) ≤ 64
    omega
  have hread : Parsable.readList? (({} : Serializer).context .employee
      ⟨.json { value := .array (jsonEach es) }, []⟩) Parsable.create
      (.json { value := .array (jsonEach es) }) = pure (some (normalizeEach es)) := by
    refine readAll?_json rfl (fun hne => ?_) fun e he step =>
      readAt_root _ rfl ((hes e he).mono fun _ => Portable.lasting) rfl ((hroom e he).below ..)
    obtain ⟨e, he⟩ := List.exists_mem_of_ne_nil es hne
    exact (hroom e he).mono (by omega)
  rw [Serializer.deserializeList, hroot, ReadM.ofResult_ok, pure_bind, hread, pure_bind]
  rfl

/-- Whatever content type stands for JSON, an employee comes back from its payload as it was, and so
does a list of employees. The JSON text is taken to be read back as the value that was written. -/
theorem roundTrip {contentType key : String}
    (hc : Encoders.stock.find contentType = .ok (key, .json)) :
    (∀ e : Employee, e.Everywhere Portable → e.depth ≤ 64 →
      Json.ofString? e.json.text = some e.json →
      ∃ e', e.Alike e' ∧
        (({} : Serializer).serialize contentType e).result =
          .ok ⟨ContentType.json, Bytes.ofString e.json.text⟩ ∧
        (({} : Serializer).deserialize .employee contentType (Bytes.ofString e.json.text)
          Parsable.create).exec = (.ok (some e'), [])) ∧
    ∀ es : List Employee, (∀ e ∈ es, e.Everywhere Portable) → depthEach es ≤ 64 →
      Json.ofString? (Json.array (jsonEach es)).text = some (.array (jsonEach es)) →
      ∃ es', List.Forall₂ Alike es es' ∧
        (({} : Serializer).serializeList contentType es).result =
          .ok ⟨ContentType.json, Bytes.ofString (Json.array (jsonEach es)).text⟩ ∧
        (({} : Serializer).deserializeList .employee contentType
          (Bytes.ofString (Json.array (jsonEach es)).text) Parsable.create).exec =
          (.ok es', []) := by
  constructor
  · intro e he hdepth htext
    have hlasting := he.mono fun _ => Portable.lasting
    exact ⟨e.normalize, e.alike_normalize, serialize_result hc hlasting,
      deserialize_json hc hlasting hdepth htext⟩
  · intro es hes hdepth htext
    exact ⟨normalizeEach es, alike_normalizeEach es, serializeList_result hc hes,
      deserializeList_json hc hes hdepth htext⟩

def adele : Employee :=
  ⟨{ id := some "e1", price := some ⟨false, 150, 2, by decide, by decide⟩ },
   some ⟨{ permissions := some ⟨5⟩ }, none, none, []⟩,
   some [⟨{ status := some .active }, none, none, []⟩],
   [("note", .array [.integer 7, .null])]⟩

theorem everywhere_adele : adele.Everywhere Portable := by
  have hplain {p : Particulars} (hp : p.Portable) : Everywhere Portable ⟨p, none, none, []⟩ :=
    .mk ⟨hp, by simp [additional], by simp [additional], by simp [additional]⟩ (by simp [manager])
      (by simp [colleagues])
  have hself : Particulars.Portable adele.particulars := by
    constructor <;> simp [adele, particulars]
  have hmanager : Particulars.Portable { permissions := some ⟨5⟩ } := by
    constructor <;> simp
    decide
  have hcolleague : Particulars.Portable { status := some .active } := by
    constructor <;> simp
  refine .mk ⟨hself, ?_, by decide, by decide⟩ ?_ ?_
  · simp [adele, additional, Untyped.Exact, Untyped.ExactItems]
  · simpa [adele, manager] using hplain hmanager
  · simpa [adele, colleagues] using hplain hcolleague

set_option maxRecDepth 20000 in
theorem ofString?_adele : Json.ofString? adele.json.text = some adele.json := by
  rfl

set_option maxRecDepth 20000 in
theorem ofString?_adeles :
    Json.ofString? (Json.array (jsonEach [adele])).text = some (.array (jsonEach [adele])) := by
  rfl

/-- Under a content type of a vendor, with a parameter. -/
theorem roundTrip_adele :
    (∃ e', adele.Alike e' ∧
      (({} : Serializer).serialize "Application/vnd.acme+JSON; v=1" adele).result =
        .ok ⟨ContentType.json, Bytes.ofString adele.json.text⟩ ∧
      (({} : Serializer).deserialize .employee "Application/vnd.acme+JSON; v=1"
        (Bytes.ofString adele.json.text) Parsable.create).exec = (.ok (some e'), [])) ∧
    ∃ es', List.Forall₂ Alike [adele] es' ∧
      (({} : Serializer).serializeList "Application/vnd.acme+JSON; v=1" [adele]).result =
        .ok ⟨ContentType.json, Bytes.ofString (Json.array (jsonEach [adele])).text⟩ ∧
      (({} : Serializer).deserializeList .employee "Application/vnd.acme+JSON; v=1"
        (Bytes.ofString (Json.array (jsonEach [adele])).text) Parsable.create).exec =
        (.ok es', []) := by
  have hc : Encoders.stock.find "Application/vnd.acme+JSON; v=1" = .ok (ContentType.json, .json) :=
    rfl
  refine ⟨(roundTrip hc).1 adele everywhere_adele (by decide +kernel) ofString?_adele,
    (roundTrip hc).2 [adele] ?_ (by decide +kernel) ofString?_adeles⟩
  intro e he
  rw [List.mem_singleton.mp he]
  exact everywhere_adele

end Employee

end Marshal
