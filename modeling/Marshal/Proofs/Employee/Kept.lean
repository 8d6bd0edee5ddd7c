import Marshal.Proofs.Employee.RoundTrip
import Marshal.Proofs.Employee.Written

/-!
Employees that were read from JSON and are written again. They come back as they were, unless they
have bits that belong to no flag, times without a text, or nothing but a member with a reserved
name.
-/

namespace Marshal

namespace Particulars

theorem Portable.survives {p : Particulars} (h : p.Portable) {k : Kind} {v : k.Carrier}
    (hv : p.Has k v) : k.Survives v := by
  cases k with
  | float => exact absurd hv (by simp [Has, h.ratio])
  | double => exact absurd hv (by simp [Has, h.score])
  | dateTime => exact h.created v hv
  | timeSpan => exact h.tenure v hv
  | _ => trivial

theorem Portable.faithful {p : Particulars} (h : p.Portable) :
    ∀ m ∈ Field.present p.rows, m.2.Faithful := by
  have hlist {α : Type} {f : α → Json} (hf : ∀ a, (f a).Faithful) (l : List α) :
      (Json.array (l.map f)).Faithful :=
    Json.faithful_array_iff.mpr (List.forall_mem_map.mpr fun a _ => hf a)
  exact forall_present (fun k v hv => Kind.faithful_json (h.survives hv)) Json.faithful_string
    (fun l _ => hlist (fun s => Json.faithful_string s) l)
    (fun l _ => hlist (fun n => Kind.faithful_json (k := .int) (v := n) trivial) l)
    (fun l _ => hlist (fun s => Json.faithful_string _) l)

end Particulars

namespace Employee

structure Floatless (e : Employee) : Prop where
  ratio : e.particulars.ratio = none
  score : e.particulars.score = none

/-- The object that is written does not have the reserved name first. -/
def Unreserved (e : Employee) : Prop :=
  ∀ m ∈ (e.ownMembers ++ AdditionalData.json e.additional).head?, m.1 ≠ Json.numberName

/-- What one employee that was read owes to come back, managers and colleagues apart. -/
structure Keepable (e : Employee) : Prop where
  created : ∀ t ∈ e.particulars.created, t.HasText
  permissions : ∀ s ∈ e.particulars.permissions, s.Known
  unreserved : e.Unreserved

variable {e : Employee}

/-! ### The text of an employee -/

theorem legible_json (h : e.Everywhere Lasting) : e.json.Legible := by
  induction h with
  | @mk e self _ _ hmanager hcolleagues =>
      have hmembers := forall_members (e := e) (P := Json.Legible) e.particulars.legible hmanager
        (fun es hes => ?_) fun m hm => m.2.legible_json (self.sound m hm).distinct
      · have hnames : (Members.keys (e.ownMembers ++ AdditionalData.json e.additional)).Nodup := by
          simpa [Members.keys] using self.expressible.nodup_keys
        rw [json_eq, Json.legible_object_iff]
        exact ⟨hnames, hmembers⟩
      · rw [jsonEach_eq, Json.legible_array_iff, List.forall_mem_map]
        exact hcolleagues es hes

theorem unreserved_json (h : e.Everywhere fun e =>
    e.Lasting ∧ (∀ m ∈ e.additional, m.2.json.Unreserved) ∧ e.Unreserved) :
    e.json.Unreserved := by
  induction h with
  | @mk e self _ _ hmanager hcolleagues =>
      obtain ⟨hlasting, hadditional, hfirst⟩ := self
      rw [json_eq, Json.unreserved_object_iff]
      refine ⟨hfirst, forall_members
        (fun m hm => (hlasting.particulars.faithful m hm).unreserved) hmanager (fun es hes => ?_)
        hadditional⟩
      rw [jsonEach_eq, Json.unreserved_array_iff]
      exact List.forall_mem_map.mpr (hcolleagues es hes)

/-! ### Reserved names -/

section Reserved

variable {self : Node → ReadM (Option Employee)} {P : Employee → Prop} {k : Nat}

theorem ensures_reread_colleagues {es : List Employee} {n : JsonNode}
    (hreread : (Json.array (jsonEach es)).reread? = some n.value) (hrank : n.value.rank < k)
    (hself : ∀ c ∈ es, ∀ n : JsonNode, c.json.reread? = some n.value → n.value.rank < k →
      (self (.json n)).Ensures fun _ => c.Everywhere P) :
    (Parsable.readAll? self (.json n)).Ensures fun _ => ∀ c ∈ es, c.Everywhere P := by
  rw [Json.reread?] at hreread
  obtain ⟨items, hitems, hv⟩ := Option.map_eq_some_iff.mp hreread
  have heach := Json.forall₂_of_rereadItems? hitems
  rw [jsonEach_eq, List.forall₂_map_left_iff] at heach
  refine (Parsable.ensures_readAll?
    (R := fun v _ => ∀ c ∈ es, c.json.reread? = some v → c.Everywhere P)
    fun items' hitems' v hmem step => ?_).mono ?_
  · intro log found log' hrun c hc hc'
    refine hself c hc (n.below step v) hc' ?_ log found log' hrun
    rw [hitems', Json.rank] at hrank
    exact Nat.lt_of_le_of_lt (Json.rank_le_rankItems hmem) hrank
  · rintro found (⟨hnull, -⟩ | ⟨items', each, hitems', -, hfound, -⟩) c hc
    · rw [hnull] at hv
      cases hv
    · obtain rfl : items' = items := by
        rw [hitems'] at hv
        exact (Json.array.inj hv).symm
      obtain ⟨v, hmem, hc'⟩ := exists_of_forall₂_of_mem heach hc
      obtain ⟨-, -, hprop⟩ := exists_of_forall₂_of_mem hfound hmem
      exact hprop c hc hc'

theorem ensures_reread_assign {n : JsonNode} {m : String × Json} (hrank : m.2.rank < k)
    (hmanager : ∀ b ∈ e.manager, ∀ n : JsonNode, b.json.reread? = some n.value →
      n.value.rank < k → (self (.json n)).Ensures fun _ => b.Everywhere P)
    (hcolleagues : ∀ es ∈ e.colleagues, ∀ c ∈ es, ∀ n : JsonNode,
      c.json.reread? = some n.value → n.value.rank < k →
      (self (.json n)).Ensures fun _ => c.Everywhere P) (a : Employee) :
    (Parsable.assign ⟨readers self⟩ a (m.1, .json (n.below m.1 m.2))).Ensures fun _ =>
      (m.1 = "manager" → ∀ b ∈ e.manager, b.json.reread? = some m.2 → b.Everywhere P) ∧
      (m.1 = "colleagues" → ∀ es ∈ e.colleagues,
        (Json.array (jsonEach es)).reread? = some m.2 → ∀ c ∈ es, c.Everywhere P) := by
  obtain ⟨name, v⟩ := m
  by_cases hm : name = "manager"
  · subst hm
    simp only [Parsable.assign, get?_manager, on_managerReader]
    refine ReadM.Ensures.bind
      (Q := fun _ => ∀ b ∈ e.manager, b.json.reread? = some v → b.Everywhere P) ?_
      fun found hfound => ReadM.ensures_pure ⟨fun _ => hfound, fun h => absurd h (by decide)⟩
    intro log found log' hrun b hb hreread
    exact hmanager b hb (n.below "manager" v) hreread hrank log found log' hrun
  · by_cases hc : name = "colleagues"
    · subst hc
      simp only [Parsable.assign, get?_colleagues, on_colleaguesReader]
      refine ReadM.Ensures.bind (Q := fun _ => ∀ es ∈ e.colleagues,
        (Json.array (jsonEach es)).reread? = some v → ∀ c ∈ es, c.Everywhere P) ?_
        fun found hfound => ReadM.ensures_pure ⟨fun h => absurd h (by decide), fun _ => hfound⟩
      intro log found log' hrun es hes hreread
      exact ensures_reread_colleagues (n := n.below "colleagues" v) hreread hrank
        (hcolleagues es hes) log found log' hrun
    · exact (ReadM.ensures_trivial _).mono fun _ _ => ⟨fun h => absurd h hm, fun h => absurd h hc⟩

/-- Reading the text of an employee well takes that it has no reserved names where objects are. -/
theorem ensures_reread {context : Reading.Context Employee} (hlayers : context.layers = [])
    (hresolve : ∀ n f, context.resolve n f = f) {Q : Employee → Prop} (he : e.Everywhere Q) :
    ∀ {n : JsonNode} {fuel : Nat}, e.json.reread? = some n.value → n.value.rank < fuel →
      (Parsable.readAt context fuel Parsable.create (.json n)).Ensures fun _ =>
        e.Everywhere Unreserved := by
  induction he with
  | @mk e _ _ _ hmanager hcolleagues =>
      intro n fuel hreread hfuel
      obtain ⟨fuel, rfl⟩ : ∃ k, fuel = k + 1 := ⟨fuel - 1, by omega⟩
      rw [json_eq] at hreread
      rw [Parsable.readAt_succ]
      refine ReadM.Ensures.bind (ReadM.ensures_ofResult fun _ h => h) fun found hfound => ?_
      -- A number in the place of the object is not read, and null cannot be there.
      rcases Json.reread?_object hreread with ⟨t, hv⟩ | ⟨members, hv, hfirst, hmembers⟩ <;>
        rcases Node.members?_json_ok hfound with ⟨hv', rfl⟩ | ⟨members', hv', rfl⟩ <;>
        rw [hv] at hv' <;> cases hv'
      have hranks : ∀ m ∈ members, m.2.rank < fuel := fun m hm => by
        rw [hv, Json.rank] at hfuel
        exact Nat.lt_of_le_of_lt (Json.rank_le_rankMembers hm) (Nat.lt_of_succ_lt_succ hfuel)
      have hcreate : (Parsable.create : Factory Employee) (.json n) = .ok empty := rfl
      simp only [hresolve, hcreate, ReadM.ofResult_ok, pure_bind, Parsable.assignAll, hlayers,
        List.foldlM_nil, fieldReaders_eq, bind_pure]
      rw [List.foldlM_map]
      refine (ReadM.ensures_foldlM_each (fun m hm a => ensures_reread_assign (hranks m hm)
        (fun b hb n => hmanager b hb) (fun es hes c hc n => hcolleagues es hes c hc) a)
        empty).bind fun _ hall => ReadM.ensures_pure (.mk hfirst (fun b hb => ?_)
          fun es hes => ?_)
      · obtain ⟨q, hq, hname, hreread⟩ := exists_of_forall₂_of_mem hmembers
          (List.mem_append_left _ (mem_ownMembers_manager hb))
        exact (hall q hq).1 hname.symm b hb hreread
      · obtain ⟨q, hq, hname, hreread⟩ := exists_of_forall₂_of_mem hmembers
          (List.mem_append_left _ (mem_ownMembers_colleagues hes))
        exact (hall q hq).2 hname.symm es hes hreread

end Reserved

/-! ### What comes back -/

theorem known_of_alike {P : Employee → Prop} (he : e.Everywhere P)
    (halike : e.Alike e.written.normalize) :
    e.Everywhere fun e => ∀ s ∈ e.particulars.permissions, s.Known := by
  induction he with
  | @mk e _ _ _ hmanager hcolleagues =>
      obtain ⟨particulars, manager, colleagues, additional⟩ := e
      rw [written, normalize] at halike
      cases halike with
      | mk _ hparticulars hm hc =>
          refine .mk (fun s hs => ?_) (fun b hb => ?_) fun es hes c hc' => ?_
          · have hsame : particulars.permissions =
                particulars.permissions.bind Permissions.written? :=
              congrArg Particulars.permissions hparticulars.1
            obtain ⟨q, -, hq⟩ := Option.bind_eq_some_iff.mp (hsame.symm.trans hs)
            exact Permissions.known_of_written? hq
          · obtain rfl : manager = some b := hb
            cases hm with
            | some h => exact hmanager b rfl h
          · obtain rfl : colleagues = some es := hes
            cases hc with
            | some h =>
                rw [writtenEach_eq, normalizeEach_eq, List.map_map, List.forall₂_map_right_iff,
                  List.forall₂_same] at h
                exact hcolleagues es rfl c hc' (h c hc')

theorem Received.lasting_written (h : e.Received) (hfloats : e.Floatless)
    (hcreated : ∀ t ∈ e.particulars.created, t.HasText) : e.written.Lasting := by
  obtain ⟨particulars, manager, colleagues, additional⟩ := e
  exact ⟨⟨hfloats.ratio, hfloats.score, hcreated, h.tenure, particulars.known_written⟩, h.sound,
    h.names, h.undeclared⟩

section Payloads

variable {source contentType key key' : String} {content : Bytes} {log : Log}

/-- What is read of a payload is read of a document. -/
theorem ensures_deserialize (hsource : Decoders.stock.find source = .ok (key, .json))
    {P : Option Employee → Prop} (h : ∀ v, content.text?.bind Json.ofString? = some v →
      (Parsable.read? (({} : Serializer).context .employee ⟨.json { value := v }, []⟩)
        Parsable.create (.json { value := v })).Ensures P) :
    (({} : Serializer).deserialize .employee source content Parsable.create).Ensures P := by
  have hfind : ({} : Serializer).decoders.find source = .ok (key, .json) := hsource
  have hformat : Decoder.json.format = .json 64 := rfl
  refine ReadM.Ensures.bind (ReadM.ensures_ofResult fun _ h => h) fun r hr => ?_
  obtain ⟨v, hv, rfl⟩ := (Serializer.root_ok_iff hfind hformat).mp hr
  exact h v hv

/-- An employee takes no more room than in the document it comes from. -/
theorem within_of_deserialize (hsource : Decoders.stock.find source = .ok (key, .json))
    (hread : (({} : Serializer).deserialize .employee source content Parsable.create).exec =
      (.ok (some e), log)) : ∃ n < Json.nestingLimit, e.Within 64 n := by
  refine ReadM.Ensures.of_exec
    (P := fun found => ∀ e ∈ found, ∃ n < Json.nestingLimit, e.Within 64 n)
    (ensures_deserialize hsource fun v hv => ?_) hread e rfl
  obtain ⟨text, -, hparse⟩ := Option.bind_eq_some_iff.mp hv
  refine (ensures_readAt (n := { value := v }) rfl (fun _ _ => rfl) (v.rank + 1)
    (Json.distinct_of_ofString? hparse) (Json.unreserved_of_ofString? hparse)).mono ?_
  exact fun found hfound e he => ⟨v.nesting, Json.nesting_lt_of_ofString? hparse, hfound e he⟩

theorem serialize_written (hc : Encoders.stock.find contentType = .ok (key, .json))
    (h : e.written.Everywhere Expressible) : (({} : Serializer).serialize contentType e).result =
      .ok ⟨ContentType.json, Bytes.ofString e.written.json.text⟩ := by
  have hputs : WriteM.Puts [] ((e.write none).exec ()) none () e.written.json := by
    rw [← write_written e]
    exact putsJson h none
  exact congrArg Sent.result <| Serializer.send_of_puts (output_of_find hc)
    (Outgoing.puts_ofUnmarked hputs) e Writable.payloadType?

/-- Written as JSON, the employee is read from there as it is. -/
def Returns (contentType : String) (e : Employee) : Prop :=
  ∃ bytes e', (({} : Serializer).serialize contentType e).result = .ok ⟨ContentType.json, bytes⟩ ∧
    (({} : Serializer).deserialize .employee contentType bytes Parsable.create).exec =
      (.ok (some e'), []) ∧ e.Alike e'

theorem ofString?_json {n : Nat} (hwithin : e.Within 64 n) (hn : n < Json.nestingLimit)
    (hlasting : e.written.Everywhere Lasting) :
    Json.ofString? e.written.json.text = e.written.json.reread? := by
  obtain ⟨hspelled, hdistinct⟩ := legible_json hlasting
  have hle := (nesting_json_written_le hwithin.everywhere).trans hwithin.nesting
  exact Json.ofString?_text hspelled hdistinct (Nat.lt_of_le_of_lt hle hn)

theorem unreserved_of_deserialize (hc : Encoders.stock.find contentType = .ok (key, .json))
    {P : Employee → Prop} {found : Option Employee} (he : e.Everywhere P)
    (htext : Json.ofString? e.json.text = e.json.reread?)
    (hread : (({} : Serializer).deserialize .employee contentType (Bytes.ofString e.json.text)
      Parsable.create).exec = (.ok found, log)) : e.Everywhere Unreserved := by
  refine ReadM.Ensures.of_exec (P := fun _ => e.Everywhere Unreserved)
    (ensures_deserialize (Decoders.find_of_encoders hc) fun v hv => ?_) hread
  rw [Bytes.text?_ofString, Option.bind_some, htext] at hv
  exact ensures_reread rfl (fun _ _ => rfl) he (n := { value := v }) hv (Nat.lt_succ_self v.rank)

/-- What is written of an employee is read again if it has no reserved names. -/
theorem deserialize_written {n : Nat} (hc : Encoders.stock.find contentType = .ok (key, .json))
    (hwithin : e.Within 64 n) (hlasting : e.written.Everywhere Lasting)
    (htext : Json.ofString? e.written.json.text = e.written.json.reread?)
    (hunreserved : e.written.Everywhere Unreserved) :
    (({} : Serializer).deserialize .employee contentType (Bytes.ofString e.written.json.text)
      Parsable.create).exec = (.ok (some e.written.normalize), []) := by
  have hadditional : e.written.Everywhere fun e => ∀ m ∈ e.additional, m.2.json.Unreserved :=
    hwithin.everywhere.written fun e h => by
      rw [additional_written]
      exact h.unreserved
  have hreread := Json.reread?_of_unreserved e.written.json
    (unreserved_json (hlasting.and (hadditional.and hunreserved)))
  exact deserialize_json hc hlasting ((depth_written_le hwithin.everywhere).trans hwithin.depth)
    (htext.trans hreread)

theorem keepable_of_returns {n : Nat} (hc : Encoders.stock.find contentType = .ok (key, .json))
    (hwithin : e.Within 64 n) (hn : n < Json.nestingLimit) (hfloats : e.Everywhere Floatless)
    (h : e.Returns contentType) : e.Everywhere Keepable := by
  obtain ⟨bytes, e', hsend, hread, halike⟩ := h
  have hreceived := hwithin.everywhere
  -- Writing has ended well, so every time has a text.
  obtain ⟨⟨⟩, o', hrun⟩ := Serializer.exists_of_send_ok (output_of_find hc) hsend
  have hcreated := everywhere_hasText hreceived
    ⟨_, _, _, _, _, Writing.runAt_of_ofUnmarked hrun⟩
  have hlasting : e.written.Everywhere Lasting :=
    (hreceived.and (hfloats.and hcreated)).written fun e h => h.1.lasting_written h.2.1 h.2.2
  -- Reading has ended well, so no reserved name stands first in what was written.
  rw [serialize_written hc (hlasting.mono fun _ => Lasting.expressible)] at hsend
  cases hsend
  have htext := ofString?_json hwithin hn hlasting
  have hunreserved := unreserved_of_deserialize hc hlasting htext hread
  -- The employee that was read has flags only, and is the one that was to be written.
  have hagain := deserialize_written hc hwithin hlasting htext hunreserved
  obtain rfl : e.written.normalize = e' := by
    simpa using hagain.symm.trans hread
  have hknown := known_of_alike hreceived halike
  rw [written_eq_self hknown] at hunreserved
  exact (hcreated.and (hknown.and hunreserved)).mono fun e h => ⟨h.1, h.2.1, h.2.2⟩

theorem returns_of_keepable {n : Nat} (hc : Encoders.stock.find contentType = .ok (key, .json))
    (hwithin : e.Within 64 n) (hn : n < Json.nestingLimit) (hfloats : e.Everywhere Floatless)
    (h : e.Everywhere Keepable) : e.Returns contentType := by
  have hwritten : e.written = e := written_eq_self (h.mono fun _ h => h.permissions)
  have hlasting : e.written.Everywhere Lasting :=
    (hwithin.everywhere.and (hfloats.and h)).written fun e h =>
      h.1.lasting_written h.2.1 h.2.2.created
  have hunreserved : e.written.Everywhere Unreserved := by
    rw [hwritten]
    exact h.mono fun _ h => h.unreserved
  have hread := deserialize_written hc hwithin hlasting (ofString?_json hwithin hn hlasting)
    hunreserved
  refine ⟨_, e.written.normalize,
    serialize_written hc (hlasting.mono fun _ => Lasting.expressible), hread, ?_⟩
  rw [hwritten]
  exact e.alike_normalize

/-- An employee that was read from JSON, and has nothing in the fields of floating point, comes back
from JSON if at every level its time has a text, its permissions are flags only, and the object that
it is written as does not have the reserved name first. Else it does not come back. -/
theorem returns_iff (hsource : Decoders.stock.find source = .ok (key, .json))
    (hc : Encoders.stock.find contentType = .ok (key', .json))
    (hread : (({} : Serializer).deserialize .employee source content Parsable.create).exec =
      (.ok (some e), log)) (hfloats : e.Everywhere Floatless) :
    e.Returns contentType ↔ e.Everywhere Keepable := by
  obtain ⟨n, hn, hwithin⟩ := within_of_deserialize hsource hread
  exact ⟨keepable_of_returns hc hwithin hn hfloats, returns_of_keepable hc hwithin hn hfloats⟩

end Payloads

def clerkDocument : Json := .object [
  ("permissions", .string "3"),
  ("tenure", .string "P1Y2W"),
  ("manager", .object [("age", .string " 7 ")]),
  ("note", .number "0.10")]

def clerk : Employee :=
  ⟨{ permissions := some ⟨3⟩, tenure := some ⟨32745600000000000, by decide⟩ },
    some ⟨{ age := some 7 }, none, none, []⟩, none, [("note", (Json.number "0.10").toUntyped)]⟩

set_option maxRecDepth 20000 in
theorem ofString?_clerkDocument : Json.ofString? clerkDocument.text = some clerkDocument := by
  rfl

theorem floatless_clerk : clerk.Everywhere Floatless := by
  refine .mk ⟨rfl, rfl⟩ (fun m hm => ?_) fun _ hes => absurd hes (Option.not_mem_none _)
  cases hm
  exact everywhere_alone ⟨rfl, rfl⟩

theorem keepable_clerk : clerk.Everywhere Keepable := by
  refine .mk ⟨fun _ ht => absurd ht (Option.not_mem_none _), fun s hs => ?_, fun m hm => ?_⟩
    (fun m hm => ?_) fun _ hes => absurd hes (Option.not_mem_none _)
  · cases hs
    decide
  · cases hm
    decide
  · cases hm
    refine everywhere_alone ⟨fun _ ht => absurd ht (Option.not_mem_none _),
      fun _ hs => absurd hs (Option.not_mem_none _), fun m hm => ?_⟩
    cases hm
    decide

theorem returns_iff_clerk :
    (({} : Serializer).deserialize .employee "application/json; charset=utf-8"
      (Bytes.ofString clerkDocument.text) Parsable.create).exec = (.ok (some clerk), []) ∧
    clerk.Everywhere Floatless ∧ clerk.Returns "Application/vnd.acme+JSON" := by
  have hsource : Decoders.stock.find "application/json; charset=utf-8" =
      .ok (ContentType.json, .json) := rfl
  have hread : (({} : Serializer).deserialize .employee "application/json; charset=utf-8"
      (Bytes.ofString clerkDocument.text) Parsable.create).exec = (.ok (some clerk), []) := by
    rw [deserialize_text hsource ofString?_clerkDocument]
    rfl
  have hc : Encoders.stock.find "Application/vnd.acme+JSON" = .ok (ContentType.json, .json) := rfl
  exact ⟨hread, floatless_clerk,
    (returns_iff hsource hc hread floatless_clerk).mpr keepable_clerk⟩

/-! ### Documents that are lost -/

/-- A bit that belongs to no flag is not written. -/
theorem not_returns_of_bits :
    ¬ Returns ContentType.json ⟨{ permissions := some ⟨16⟩ }, none, none, []⟩ := by
  rintro ⟨bytes, e', hsend, hread, halike⟩
  have hwritten : (({} : Serializer).serialize ContentType.json
      (⟨{ permissions := some ⟨16⟩ }, none, none, []⟩ : Employee)).result =
      .ok ⟨ContentType.json, Bytes.ofString (Json.object []).text⟩ := rfl
  rw [hwritten] at hsend
  cases hsend
  have hempty : Json.ofString? (Json.object []).text = some (.object []) := rfl
  have hagain : (Parsable.read? (({} : Serializer).context .employee
      ⟨.json { value := .object [] }, []⟩) Parsable.create (.json { value := .object [] })).exec =
      (.ok (some empty), []) := rfl
  rw [deserialize_text Decoders.find_stock_json hempty, hagain] at hread
  cases hread
  cases halike with
  | mk _ hparticulars _ _ => exact absurd (congrArg Particulars.permissions hparticulars.1) nofun

/-- RFC 3339 has no year below zero. -/
theorem not_returns_of_year :
    ¬ Returns ContentType.json
      ⟨{ created := some ⟨⟨-1, 1, 1, by decide⟩, default, 0, by decide⟩ }, none, none, []⟩ := by
  rintro ⟨bytes, e', hsend, -⟩
  cases hsend

/-- What has the reserved name first is read as a number. -/
theorem not_returns_of_name :
    ¬ Returns ContentType.json ⟨{}, none, none, [(Json.numberName, .string "five")]⟩ := by
  rintro ⟨bytes, e', hsend, hread, -⟩
  have hwritten : (({} : Serializer).serialize ContentType.json
      (⟨{}, none, none, [(Json.numberName, .string "five")]⟩ : Employee)).result =
      .ok ⟨ContentType.json,
        Bytes.ofString (Json.object [(Json.numberName, .string "five")]).text⟩ := rfl
  rw [hwritten] at hsend
  cases hsend
  have hnone : Json.ofString? (Json.object [(Json.numberName, .string "five")]).text = none := rfl
  refine ReadM.Ensures.of_exec (P := fun _ => False)
    (ensures_deserialize Decoders.find_stock_json fun v hv => ?_) hread
  rw [Bytes.text?_ofString, Option.bind_some, hnone] at hv
  cases hv

/-- The document is read without floating point, but what is read from it does not come back. -/
def Lost (v : Json) : Prop :=
  ∃ e, (({} : Serializer).deserialize .employee ContentType.json (Bytes.ofString v.text)
      Parsable.create).exec = (.ok (some e), []) ∧
    e.Everywhere Floatless ∧ ¬ e.Returns ContentType.json

/-- Each of the three reasons is enough alone. -/
theorem lost_of_bits_year_name :
    Lost (.object [("permissions", .string "16")]) ∧
    Lost (.object [("created", .string "-000001-01-01T00:00:00Z")]) ∧
    Lost (.object [("id", .null), (Json.numberName, .string "five")]) := by
  have hread {v : Json} (h : Json.ofString? v.text = some v) :=
    deserialize_text Decoders.find_stock_json h
  refine ⟨⟨_, ?_, everywhere_alone ⟨rfl, rfl⟩, not_returns_of_bits⟩,
    ⟨_, ?_, everywhere_alone ⟨rfl, rfl⟩, not_returns_of_year⟩,
    ⟨_, ?_, everywhere_alone ⟨rfl, rfl⟩, not_returns_of_name⟩⟩
  · rw [hread rfl]
    rfl
  · rw [hread rfl, Parsable.read?, Parsable.readAt_succ]
    rfl
  · rw [hread rfl]
    rfl

end Employee

end Marshal
