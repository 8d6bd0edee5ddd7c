import Marshal.Proofs.Profile.Settled

/-!
A profile that is assigned to another one. The assignment marks the entry of the property and
nothing within it, so what is sent of the assigned profile is what has changed about it: all that it
holds if all of that counts as changed, and an empty object if nothing does.
-/

namespace Marshal

namespace Profile

mutual

/-- The value is an object of all that a store holds, explicit nulls apart, and so are the objects
within it. -/
def Shows : Store → Json → Prop
  | ⟨_, _, es⟩, v => ∃ members : Members Json, v = .object members ∧ EntriesShown es members

def EntriesShown : List (Entry Store) → Members Json → Prop
  | [], _ => True
  | ⟨key, _, held⟩ :: es, members =>
    (held.isNull = false → ∃ v, members.get? key = some v ∧ HeldShown held v) ∧
      EntriesShown es members

def HeldShown : Held Store → Json → Prop
  | .null, _ => True
  | .scalar .string s, v => v = .string s
  | .model m, v => Shows m v
  | .models ms, v => ∃ vs, v = .array vs ∧ ModelsShown ms vs
  | _, _ => False

def ModelsShown : List Store → List Json → Prop
  | [], [] => True
  | m :: ms, v :: vs => Shows m v ∧ ModelsShown ms vs
  | _, _ => False

end

/-- Every value that the store holds counts as changed, explicit nulls apart. -/
def AllChanged (s : Store) : Prop :=
  ∀ e ∈ s.entries, e.held.isNull = false → Store.changed e = true

theorem entriesShown_iff {es : List (Entry Store)} {members : Members Json} :
    EntriesShown es members ↔ ∀ e ∈ es, e.held.isNull = false →
      ∃ v, members.get? e.key = some v ∧ HeldShown e.held v := by
  induction es with
  | nil => simp [EntriesShown]
  | cons e es ih => rw [EntriesShown, ih, List.forall_mem_cons]

theorem shows_object_iff {p : Store} {members : Members Json} :
    Shows p (.object members) ↔ ∀ e ∈ p.entries, e.held.isNull = false →
      ∃ v, members.get? e.key = some v ∧ HeldShown e.held v := by
  obtain ⟨i, o, es⟩ := p
  simp [Shows, entriesShown_iff]

theorem modelsShown_iff {ms : List Store} {vs : List Json} (hu : ModelsUpdate ms vs)
    (ih : ∀ m ∈ ms, ∀ v, Updates m v → (Shows m v ↔ Store.Everywhere AllChanged m)) :
    ModelsShown ms vs ↔ ∀ m ∈ ms, Store.Everywhere AllChanged m := by
  induction ms generalizing vs with
  | nil =>
      obtain rfl : vs = [] := by cases vs <;> simp_all [ModelsUpdate]
      simp [ModelsShown]
  | cons m ms hms =>
      cases vs with
      | nil => exact hu.elim
      | cons v vs =>
          rw [ModelsUpdate] at hu
          rw [ModelsShown, ih m (by simp) v hu.1, hms hu.2 fun m hm => ih m (by simp [hm]),
            List.forall_mem_cons]

theorem heldShown_iff {h : Held Store} {v : Json} (hu : HeldUpdate h v)
    (ih : ∀ m ∈ h.nested, ∀ v, Updates m v → (Shows m v ↔ Store.Everywhere AllChanged m)) :
    HeldShown h v ↔ ∀ m ∈ h.nested, Store.Everywhere AllChanged m := by
  cases h with
  | null => simp [HeldShown, Held.nested]
  | scalar k x =>
      cases k with
      | string =>
          rw [HeldUpdate] at hu
          simp [HeldShown, Held.nested, hu]
      | _ => exact hu.elim
  | strings l => exact hu.elim
  | plain m => exact hu.elim
  | model m => simpa [HeldShown, Held.nested] using ih m (List.mem_singleton_self m) v hu
  | models ms =>
      obtain ⟨vs, rfl, hvs⟩ := hu
      simpa [HeldShown, Held.nested] using modelsShown_iff hvs ih

/-- The changes of a profile show all of it exactly if all of it has changed. -/
theorem shows_iff_of_updates {p : Store} (hp : IsProfile p) {v : Json} (hu : Updates p v) :
    Shows p v ↔ Store.Everywhere AllChanged p := by
  induction p using Store.induct generalizing v with
  | step p ih =>
      obtain ⟨members, rfl, hkeys, hheld⟩ := updates_iff.mp hu
      have hnested : ∀ e ∈ p.entries, ∀ w, HeldUpdate e.held w →
          (HeldShown e.held w ↔ ∀ m ∈ e.held.nested, Store.Everywhere AllChanged m) :=
        fun e he w hw => heldShown_iff hw fun m hm v hv => ih e he m hm (hp.nested he hm) hv
      rw [shows_object_iff, Store.everywhere_iff]
      constructor
      · intro hshown
        have hchanged : AllChanged p := by
          intro e he hn
          obtain ⟨w, hget, -⟩ := hshown e he hn
          have hkey := hkeys.mem_iff.mp (List.mem_map_of_mem (Members.mem_of_get? hget))
          obtain ⟨f, hf, hfk⟩ := List.mem_map.mp hkey
          obtain ⟨hmem, hc⟩ := List.mem_filter.mp hf
          obtain rfl := Store.eq_of_key_eq hp.root.nodup hmem he hfk
          exact hc
        refine ⟨hchanged, fun e he m hm => ?_⟩
        have hn : e.held.isNull = false := by
          cases hh : e.held <;> simp_all [Held.isNull, Held.nested]
        obtain ⟨w, hget, hw⟩ := hshown e he hn
        obtain ⟨w', hget', hu'⟩ := hheld e he (hchanged e he hn)
        obtain rfl := Option.some.inj (hget.symm.trans hget')
        exact (hnested e he w hu').mp hw m hm
      · rintro ⟨hchanged, hbelow⟩ e he hn
        obtain ⟨w, hget, hu'⟩ := hheld e he (hchanged e he hn)
        exact ⟨w, hget, (hnested e he w hu').mpr (hbelow e he)⟩

/-- All that a profile holds can be made to count as changed before it is assigned. -/
theorem allChanged_makeSendable {p : Store} (hp : IsProfile p) :
    Store.Everywhere AllChanged p.makeSendable := by
  rw [Store.makeSendable]
  induction p using Store.induct with
  | step p ih =>
      refine Store.everywhere_iff.mpr ⟨fun e he _ => ?_, fun e he m hm => ?_⟩
      · rw [Store.entries_mark] at he
        obtain ⟨f, -, rfl⟩ := List.mem_map.mp he
        rfl
      · rw [Store.entries_mark] at he
        obtain ⟨f, hf, rfl⟩ := List.mem_map.mp he
        obtain ⟨property, -, ha⟩ := hp.root.typed f hf
        rw [← (ha.markHeld none true).linked_eq, Store.linked_markHeld, ha.linked_eq] at hm
        obtain ⟨n, hn, rfl⟩ := List.mem_map.mp hm
        exact ih f hf n hn (hp.nested hf hn)

theorem isProfile_set_manager {p m : Profile} (hp : IsProfile p) (hm : IsProfile m) :
    IsProfile (set p .manager (.profile (some m))) := by
  refine Store.everywhere_iff.mpr ⟨hp.root.set (.inr ⟨m, rfl⟩), fun e he n hn => ?_⟩
  rcases Store.mem_entries_set p _ he with rfl | he
  · obtain rfl := List.mem_singleton.mp hn
    exact hm
  · exact hp.nested he hn

/-- Behind a layer that keeps stores in step, a profile that was assigned as a manager is sent as
the object of its own changes, and this is all of it exactly if every value in its tree counts as
changed, which `makeSendable` sees to. -/
theorem serialize_assigned {s : Serializer} {r : Encoders}
    (hs : s.encoders = r.mapAll (Encoder.wrap .changes)) {contentType key : String}
    (hf : r.find contentType = .ok (key, .json)) {p m : Profile} (hp : IsProfile p)
    (hm : IsProfile m) (hi : Store.initialized p = true) :
    (∃ (members : Members Json) (w : Json),
      (s.serialize contentType (set p .manager (.profile (some m)))).result =
        .ok ⟨ContentType.json, Bytes.ofString (Json.object members).text⟩ ∧
      members.get? Property.manager.key = some w ∧ Updates m w ∧
      (Shows m w ↔ Store.Everywhere AllChanged m)) ∧
    Store.Everywhere AllChanged m.makeSendable := by
  have hfind : s.encoders.find contentType = .ok (key, Encoder.json.wrap .changes) := by
    rw [hs, Registry.find_mapAll, hf]
    rfl
  obtain ⟨⟨b, v⟩, hv, -, hputs⟩ := putsChanges (Layer.quiet_replicate 1) (List.cons_ne_nil _ _)
    (set p .manager (.profile (some m)))
  have hsend := Serializer.send_of_puts (Serializer.output_of_find hfind) (hputs none)
    (set p .manager (.profile (some m))) (fun _ => none)
  obtain ⟨members, rfl, -, hheld⟩ := updates_iff.mp (hv (isProfile_set_manager hp hm))
  -- The new entry is marked, because the store that it was put in is complete.
  have hentry : Store.find? (set p .manager (.profile (some m))) Property.manager.key =
      some ⟨Property.manager.key, Store.initialized p, .model m⟩ := by
    rw [set, Store.find?_set, if_pos rfl]
    rfl
  obtain ⟨w, hget, hw⟩ := hheld _ (Store.find?_eq_some hentry).1
    (by rw [Store.changed, hi, Bool.true_or])
  exact ⟨⟨members, w, congrArg Sent.result hsend, hget, hw, shows_iff_of_updates hm hw⟩,
    allChanged_makeSendable hm⟩

def lead : Profile :=
  ⟨true, true, [
    ⟨"id", false, .scalar .string "m1"⟩,
    ⟨"jobTitle", true, .scalar .string "Lead"⟩,
    ⟨"manager", false, .model ⟨false, false, [⟨"id", true, .scalar .string "c1"⟩]⟩⟩,
    ⟨"reports", false, .models [⟨true, false, [⟨"id", false, .scalar .string "r1"⟩]⟩]⟩]⟩

theorem serialize_assigned_lead :
    ∃ (members : Members Json) (w : Json),
      (({ encoders := Encoders.stock.mapAll (Encoder.wrap .changes) } : Serializer).serialize
        ContentType.json (set edited .manager (.profile (some lead)))).result =
          .ok ⟨ContentType.json, Bytes.ofString (Json.object members).text⟩ ∧
      members.get? "manager" = some w ∧ Updates lead w ∧ ¬ Shows lead w := by
  have hp : IsProfile edited := by
    simp [IsProfile, edited, Held.nested, proper_iff, Store.allKeys, Property.exists_iff,
      Property.key, Property.Admits]
  have hm : IsProfile lead := by
    simp [IsProfile, lead, Held.nested, proper_iff, Store.allKeys, Property.exists_iff,
      Property.key, Property.Admits]
  obtain ⟨⟨members, w, hsent, hget, hw, hshows⟩, -⟩ :=
    serialize_assigned (s := { encoders := Encoders.stock.mapAll (Encoder.wrap .changes) }) rfl
      Encoders.find_stock_json hp hm rfl
  refine ⟨members, w, hsent, hget, hw, fun h => ?_⟩
  have hid := (hshows.mp h).root ⟨"id", false, .scalar .string "m1"⟩ List.mem_cons_self rfl
  cases hid

def spotless : Profile :=
  ⟨true, false, [⟨"id", false, .scalar .string "m1"⟩]⟩

/-- Nothing is sent of a manager about whom nothing has changed. -/
theorem assigned_spotless :
    (({ encoders := Encoders.stock.mapAll (Encoder.wrap .changes) } : Serializer).serialize
      ContentType.json (set Store.empty .manager (.profile (some spotless)))).result =
        .ok ⟨ContentType.json, Bytes.ofString (Json.object [("manager", .object [])]).text⟩ ∧
    ¬ Shows spotless (.object []) := by
  refine ⟨rfl, fun h => ?_⟩
  obtain ⟨v, hget, -⟩ := shows_object_iff.mp h _ List.mem_cons_self rfl
  cases hget

end Profile

end Marshal
