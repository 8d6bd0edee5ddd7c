import Marshal.Models.AnyModel
import Marshal.Proofs.Form.Field

/-!
Contacts that are sent as a form and read again. The null of a form, commas, blanks around a topic
and lists without topics are what does not survive.
-/

namespace Marshal

namespace Contact

open FormNode Writing

/-! ### What stands in the form -/

def texts (c : Contact) : Members (List String) := [
  ("name", c.name.toList),
  ("age", (c.age.map fun n => intText n.toInt).toList),
  ("subscribed", (c.subscribed.map boolText).toList),
  ("topics", c.topics.getD []),
  ("status", (c.status.bind Status.wire.write?).toList)]

def topicsBack (topics : Option (List String)) : Option (List String) :=
  if topics.getD [] = [] then none
  else (present? (",".intercalate (topics.getD []))).map items

def received (c : Contact) : Contact :=
  { c with name := c.name.bind present?, topics := topicsBack c.topics }

theorem forall₂_spells (c : Contact) :
    List.Forall₂ (Field.Spells c c.received) fields c.texts := by
  have hnamed : ∀ s, Status.wire.Named s := by
    intro s
    cases s <;> decide
  have hnull : ∀ s, ∀ t ∈ Status.wire.write? s, isNull t = false := by
    intro s
    cases s <;> decide
  exact .cons ⟨rfl, Kind.string_codec_spells _⟩ <| .cons ⟨rfl, Kind.int_codec_spells _⟩ <|
    .cons ⟨rfl, Kind.bool_codec_spells _⟩ <| .cons ⟨rfl, Kind.string_listCodec_spells _⟩ <|
    .cons ⟨rfl, WireEnum.codec_spells (fun s _ => hnamed s) fun s _ => hnull s⟩ .nil

theorem settles (c : Contact) : Field.Settles c fields {} c :=
  .cons rfl <| .cons rfl <| .cons rfl <| .cons rfl <| .cons rfl <| .nil c

/-- There is nothing in the form. -/
theorem spread_texts_eq_nil_iff {c : Contact} :
    Form.spread c.texts = [] ↔ c.name = none ∧ c.age = none ∧ c.subscribed = none ∧
      c.topics.getD [] = [] ∧ c.status = none := by
  have hstatus : c.status.bind Status.wire.write? = none ↔ c.status = none := by
    cases c.status with
    | none => simp
    | some s => cases s <;> decide
  simp [Form.spread, texts, hstatus]

/-! ### Writing and reading -/

theorem run_write (c : Contact) :
    ((Writable.outgoing c).write none).run ⟨.form {}, [], []⟩ =
      ((.ok (), c), ⟨.form ⟨Form.spread c.texts, false, none⟩, [], []⟩) := by
  have hfields : (Writing.script (Field.scripts fields c) : Writing Unit Unit).runAt ()
      ⟨.form ⟨[], true, none⟩, [], []⟩ =
        ((.ok (), ()), ⟨.form ⟨Form.spread c.texts, true, none⟩, [], []⟩) := by
    rw [runAt_script, Field.appends_scripts c.forall₂_spells ⟨[], true, none⟩ ⟨rfl, rfl⟩]
    rfl
  have hstart : Draft.call (.startObject none .model) (AnyDraft.form {}) =
      (.ok (), .form ⟨[], true, none⟩) := rfl
  have hend : Draft.call .endObject (AnyDraft.form ⟨Form.spread c.texts, true, none⟩) =
      (.ok (), .form ⟨Form.spread c.texts, false, none⟩) := rfl
  have hobject : (c.write none).runAt () ⟨.form {}, [], []⟩ =
      ((.ok (), ()), ⟨.form ⟨Form.spread c.texts, false, none⟩, [], []⟩) :=
    runAt_object_ok (o := ⟨.form {}, [], []⟩) Layer.quiet_nil none .model (fun _ : Unit => {})
      (fun _ a => a) hstart hfields rfl hend
  show ((Outgoing.ofUnmarked c c.write).write none).run _ = _
  rw [run_ofUnmarked, hobject]

theorem serialize_form (c : Contact) :
    ({} : Serializer).serialize ContentType.form c =
      ⟨.ok ⟨ContentType.form, Form.bytes (Form.spread c.texts)⟩, c, []⟩ := by
  have ho : ({} : Serializer).output ContentType.form = .ok ⟨.form {}, [], []⟩ := rfl
  rw [Serializer.serialize, Serializer.send_form ho (run_write c) rfl]
  rfl

theorem names_texts (c : Contact) : Members.keys c.texts = fields.map (·.name) := rfl

theorem deserialize_form (c : Contact) (hne : Form.spread c.texts ≠ []) :
    (({} : Serializer).deserialize .contact ContentType.form (Form.bytes (Form.spread c.texts))
      Parsable.create).exec = (.ok (some c.received), []) := by
  have htidy : ∀ name ∈ Members.keys c.texts, FormFields.Tidy name := by
    rw [names_texts]
    decide +kernel
  have hnodup : ((Members.keys c.texts).map Text.lower).Nodup := by
    rw [names_texts]
    decide +kernel
  have hfields : FormFields.ofPairs (Form.decode (Form.bytes (Form.spread c.texts))) =
      c.texts.flatMap FormFields.ofGroup := by
    rw [Form.decode_bytes, FormFields.ofPairs_spread htidy hnodup]
  have hfold : (FormFields.nodes (c.texts.flatMap FormFields.ofGroup)).foldlM
      (Parsable.assign (Field.readers fields)) {} = pure c.received :=
    Field.foldlM_nodes c.received.settles c.forall₂_spells fun _ hf =>
      Field.get?_readers (by decide) hf
  have hf : ({} : Serializer).decoders.find ContentType.form = .ok (ContentType.form, .form) := rfl
  have hm : ({} : Serializer).discriminators.mapping? .contact = none := rfl
  rw [Serializer.deserialize, Serializer.root_of_form hf rfl (mt Form.bytes_eq_nil_iff.mp hne),
    ReadM.ofResult_ok, pure_bind, FormNode.ofContent, hfields]
  exact congrArg ReadM.exec (Parsable.readAt_form (k := 1) rfl
    (fun n f => Discriminators.resolve_of_none hm n f) rfl hfold)

theorem deserialize_nothing :
    (({} : Serializer).deserialize .contact ContentType.form [] Parsable.create).exec =
      (.error (.invalidArgument .emptyContent), []) := rfl

def resent (c : Contact) : Result (Option Contact) := do
  let p ← (({} : Serializer).serialize ContentType.form c).result
  (({} : Serializer).deserialize .contact ContentType.form p.bytes Parsable.create).exec.1

theorem resent_eq (c : Contact) :
    c.resent = if Form.spread c.texts = [] then .error (.invalidArgument .emptyContent)
      else .ok (some c.received) := by
  simp only [resent, serialize_form, bind, Except.bind]
  split
  · rename_i h
    rw [h]
    exact congrArg Prod.fst deserialize_nothing
  · rename_i h
    rw [deserialize_form c h]

/-! ### What survives -/

theorem topicsBack_eq_self_iff {topics : Option (List String)} :
    topicsBack topics = topics ↔ ∀ ts, topics = some ts →
      ts ≠ [] ∧ ∀ t ∈ ts, ',' ∉ t.toList ∧ Text.trim t = t ∧ isNull t = false := by
  cases topics with
  | none => simp [topicsBack]
  | some ts =>
      rw [topicsBack, Option.getD_some]
      by_cases hne : ts = []
      · simp [hne]
      · rw [if_neg hne]
        constructor
        · rintro h ts' ⟨⟩
          obtain ⟨s, -, hitems⟩ := Option.map_eq_some_iff.mp h
          exact ⟨hne, fun t ht => mem_items (hitems ▸ ht)⟩
        · intro h
          exact items_intercalate hne (h ts rfl).2

theorem nameBack_eq_self_iff {name : Option String} :
    name.bind present? = name ↔ ∀ s, name = some s → isNull s = false := by
  cases name with
  | none => simp
  | some s =>
      rw [Option.bind_some, present?_eq_some_iff]
      simp

theorem received_eq_self_iff {c : Contact} :
    c.received = c ↔ (∀ s, c.name = some s → isNull s = false) ∧ ∀ ts, c.topics = some ts →
      ts ≠ [] ∧ ∀ t ∈ ts, ',' ∉ t.toList ∧ Text.trim t = t ∧ isNull t = false := by
  rw [← nameBack_eq_self_iff, ← topicsBack_eq_self_iff]
  obtain ⟨name, age, subscribed, topics, status⟩ := c
  simp [received]

def Filled (c : Contact) : Prop :=
  c.name.isSome ∨ c.age.isSome ∨ c.subscribed.isSome ∨ c.topics.isSome ∨ c.status.isSome

/-- The contacts that survive a form, and there are no others. -/
theorem resent_eq_self_iff (c : Contact) :
    c.resent = .ok (some c) ↔ c.Filled ∧
      (∀ name, c.name = some name → Text.eqIgnoringCase name "null" = false) ∧
      ∀ topics, c.topics = some topics → topics ≠ [] ∧ ∀ t ∈ topics,
        ',' ∉ t.toList ∧ Text.trim t = t ∧ Text.eqIgnoringCase t "null" = false := by
  rw [resent_eq]
  by_cases hnil : Form.spread c.texts = []
  · -- Topics without elements are a field, but leave nothing in the form.
    rw [if_pos hnil]
    obtain ⟨hname, hage, hsubscribed, htopics, hstatus⟩ := spread_texts_eq_nil_iff.mp hnil
    constructor
    · intro h
      cases h
    · rintro ⟨hfilled, -, hsurvive⟩
      cases ht : c.topics with
      | none => simp [Filled, hname, hage, hsubscribed, ht, hstatus] at hfilled
      | some ts =>
          rw [ht, Option.getD_some] at htopics
          exact absurd htopics (hsurvive ts ht).1
  · rw [if_neg hnil]
    have hfilled : c.Filled := by
      by_contra h
      simp only [Filled, not_or, Option.not_isSome_iff_eq_none] at h
      obtain ⟨hname, hage, hsubscribed, htopics, hstatus⟩ := h
      exact hnil (spread_texts_eq_nil_iff.mpr
        ⟨hname, hage, hsubscribed, by rw [htopics]; rfl, hstatus⟩)
    rw [Except.ok.injEq, Option.some.injEq, received_eq_self_iff]
    exact ⟨fun h => ⟨hfilled, h⟩, fun h => h.2⟩

end Contact

end Marshal
