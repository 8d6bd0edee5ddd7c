import Marshal.Proofs.Json.Faithful
import Marshal.Proofs.Profile.Update
import Marshal.Proofs.Sending

/-!
What the writing of a profile does to a JSON document, property by property, and what payload comes
of it.
-/

namespace Marshal

namespace Profile

open Writing WriteM

/-- No store of the tree returns only changed values. -/
def Unfiltered (p : Store) : Prop :=
  Store.Everywhere (fun s => s.onlyChanged = false) p

def IsProfile (p : Store) : Prop :=
  Store.Everywhere Proper p

theorem outgoingEntries_eq (es : List (Entry Store)) :
    outgoingEntries es = es.map fun e => ⟨e.key, e.dirty, outgoingHeld e.held⟩ := by
  induction es with
  | nil => rfl
  | cons e es ih => rw [outgoingEntries, ih, List.map_cons]

theorem outgoingAll_eq (ms : List Store) : outgoingAll ms = ms.map outgoing := by
  induction ms with
  | nil => rfl
  | cons m ms ih => rw [outgoingAll, ih, List.map_cons]

theorem model?_outgoingHeld (h : Held Store) :
    (outgoingHeld h).model? = h.model?.map outgoing := by
  cases h <;> rfl

theorem models?_outgoingHeld (h : Held Store) :
    (outgoingHeld h).models? = h.models?.map (List.map outgoing) := by
  cases h <;> simp [outgoingHeld, Held.models?, outgoingAll_eq]

@[simp] theorem model_outgoing (p : Store) : (outgoing p).model = p := by
  cases p
  rfl

theorem write_outgoing (p : Store) (key : Option String) :
    (outgoing p).write key = (write (outgoingEntries p.entries) key).exec p := by
  cases p
  rfl

theorem shown?_outgoingEntries (p : Store) (property : Property) :
    shown? p (outgoingEntries p.entries) property =
      (Store.get? p property.key).map outgoingHeld := by
  have hfind : (outgoingEntries p.entries).find? (·.key == property.key) =
      (Store.find? p property.key).map fun e => ⟨e.key, e.dirty, outgoingHeld e.held⟩ := by
    rw [outgoingEntries_eq, List.find?_map]
    rfl
  rw [shown?, hfind]
  cases hf : Store.find? p property.key with
  | none => simp [Store.get?, hf]
  | some e => cases hv : Store.visible p e <;> simp [Store.get?, hf, hv, Option.filter_some]

/-- The manager that a read gives, ready to be written. -/
theorem shown_manager (p : Store) :
    (shown? p (outgoingEntries p.entries) .manager).bind Held.model? =
      (manager? p).map outgoing := by
  rw [shown?_outgoingEntries, manager?]
  cases Store.get? p Property.manager.key <;> simp [model?_outgoingHeld]

/-- The reports that a read gives, ready to be written. -/
theorem shown_reports (p : Store) :
    (shown? p (outgoingEntries p.entries) .reports).bind Held.models? =
      (reports? p).map (List.map outgoing) := by
  rw [shown?_outgoingEntries, reports?]
  cases Store.get? p Property.reports.key <;> simp [models?_outgoingHeld]

/-- The members that come from one property: one if the property has changed and is not null, and
none otherwise. -/
structure Portion (p : Store) (property : Property) (members : Members Json) : Prop where
  keys : members.keys.Sublist [property.key]
  sound : ∀ q ∈ members, ∃ e ∈ p.entries,
    e.key = q.1 ∧ Store.changed e = true ∧ e.held ≠ .null ∧ HeldUpdate e.held q.2
  complete : ∀ e ∈ p.entries, e.key = property.key → Store.changed e = true → e.held ≠ .null →
    property.key ∈ members.keys

theorem admits_of_key_eq {p : Store} (hp : Proper p) {e : Entry Store} (he : e ∈ p.entries)
    {property : Property} (hk : e.key = property.key) : property.Admits e.held := by
  obtain ⟨other, hother, hadmits⟩ := hp.typed e he
  obtain rfl : other = property := by
    rw [hk] at hother
    revert hother
    cases other <;> cases property <;> decide
  exact hadmits

/-- Nothing comes from a property that the store does not show. -/
theorem portion_nil {p : Store} {property : Property}
    (h : ∀ e ∈ p.entries, e.key = property.key → Store.changed e = true → e.held = .null) :
    Portion p property [] where
  keys := by simp
  sound := by simp
  complete := fun e he hk hc hn => absurd (h e he hk hc) hn

theorem portion_singleton {p : Store} {property : Property} {e : Entry Store} {v : Json}
    (he : e ∈ p.entries) (hk : e.key = property.key) (hc : Store.changed e = true)
    (hn : e.held ≠ .null) (hv : HeldUpdate e.held v) : Portion p property [(property.key, v)] where
  keys := by simp
  sound := by
    intro q hq
    obtain rfl := List.mem_singleton.mp hq
    exact ⟨e, he, hk, hc, hn, hv⟩
  complete := by simp

def textMembers (p : Store) (property : Property) : Members Json :=
  (text? p property).toList.map fun s => (property.key, .string s)

section Fields

variable {layers : List Layer} {p : Store}

/-- A read of a changed key gives what its entry holds. -/
theorem get?_of_changed (hp : Proper p) {e : Entry Store}
    (he : e ∈ p.entries) (hc : Store.changed e = true) : p.get? e.key = some e.held :=
  (Store.get?_eq_some_iff hp.nodup).mpr ⟨e, he, rfl, by simp [Store.visible, hc], rfl⟩

theorem changed_of_get? (ho : p.onlyChanged = true) {key : String} {h : Held Store}
    (hg : p.get? key = some h) :
    ∃ e ∈ p.entries, e.key = key ∧ Store.changed e = true ∧ e.held = h := by
  simp only [Store.get?, Option.map_eq_some_iff, Option.filter_eq_some_iff] at hg
  obtain ⟨e, ⟨hf, hv⟩, rfl⟩ := hg
  obtain ⟨he, hk⟩ := Store.find?_eq_some hf
  exact ⟨e, he, hk, by simpa [Store.visible, ho] using hv, rfl⟩

/-- What a read finds under a key is one of the stores below if it is a model. -/
theorem nested_of_get? {key : String} {h : Held Store} {m : Store} (hg : p.get? key = some h)
    (hm : m ∈ h.nested) : ∃ e ∈ p.entries, m ∈ e.held.nested := by
  simp only [Store.get?, Option.map_eq_some_iff, Option.filter_eq_some_iff] at hg
  obtain ⟨e, ⟨hf, -⟩, rfl⟩ := hg
  exact ⟨e, (Store.find?_eq_some hf).1, hm⟩

theorem held_of_get? {key : String} {h : Held Store} {e : Entry Store} (hg : p.get? key = some h)
    (hfind : p.find? key = some e) : e.held = h := by
  simp only [Store.get?, Option.map_eq_some_iff, Option.filter_eq_some_iff] at hg
  obtain ⟨f, ⟨hfind', -⟩, rfl⟩ := hg
  rw [Option.some.inj (hfind.symm.trans hfind')]

/-- A value that is put back under its key as it was read changes nothing. -/
theorem restore_of_get? {key : String} {h : Held Store} {f : Held Store → Held Store}
    (hg : p.get? key = some h) (hf : f h = h) : p.restore key f = p :=
  Store.restore_of_find? fun e hfind => by rw [held_of_get? hg hfind, hf]

/-- The manager that a read gives is one of the stores below. -/
theorem nested_of_manager? {m : Store} (hm : manager? p = some m) :
    ∃ e ∈ p.entries, m ∈ e.held.nested := by
  obtain ⟨h, hg, hh⟩ := Option.bind_eq_some_iff.mp hm
  exact nested_of_get? hg (by cases h <;> simp_all [Held.model?, Held.nested])

/-- The reports that a read gives are stores below. -/
theorem nested_of_reports? {ms : List Store} (hms : reports? p = some ms) {m : Store}
    (hm : m ∈ ms) : ∃ e ∈ p.entries, m ∈ e.held.nested := by
  obtain ⟨h, hg, hh⟩ := Option.bind_eq_some_iff.mp hms
  exact nested_of_get? hg (by cases h <;> simp_all [Held.models?, Held.nested])

/-- The manager comes back as it went out, so putting it back changes nothing. -/
theorem restore_manager {m : Store} (hm : manager? p = some m) :
    Store.restore Property.manager.key (fun h => (h.mapModel? fun _ => m).getD h) p = p := by
  obtain ⟨h, hg, hh⟩ := Option.bind_eq_some_iff.mp hm
  exact restore_of_get? hg (by cases h <;> simp_all [Held.model?, Held.mapModel?])

theorem restore_reports {ms : List Store} (hms : reports? p = some ms) :
    Store.restore Property.reports.key (fun _ => .models ms) p = p := by
  obtain ⟨h, hg, hh⟩ := Option.bind_eq_some_iff.mp hms
  exact restore_of_get? hg (by cases h <;> simp_all [Held.models?])

theorem adds_writeText (property : Property) :
    Adds layers (writeText property) p p (textMembers p property) := by
  have h : Adds layers (call (.string (some property.key) (text? p property))) p p
      (((text? p property).map Json.string).toList.map (property.key, ·)) :=
    adds_call (fun d => rfl) p
  refine Adds.get ?_
  cases hs : text? p property <;> simpa [textMembers, hs] using h

theorem portion_text (ho : p.onlyChanged = true) (hp : Proper p) {property : Property}
    (htext : ∀ h, property.Admits h → h = .null ∨ ∃ s, h = .scalar .string s) :
    Portion p property (textMembers p property) := by
  rw [textMembers]
  cases hs : text? p property with
  | none =>
      apply portion_nil
      intro e he hk hc
      rcases htext _ (admits_of_key_eq hp he hk) with hnull | ⟨s, hscalar⟩
      · exact hnull
      · have hg := get?_of_changed hp he hc
        rw [hk, hscalar] at hg
        simp [text?, hg, Held.scalar?] at hs
  | some s =>
      obtain ⟨h, hg, hh⟩ := Option.bind_eq_some_iff.mp hs
      obtain ⟨e, he, hk, hc, rfl⟩ := changed_of_get? ho hg
      have hscalar : e.held = .scalar .string s := by
        rcases htext _ (admits_of_key_eq hp he hk) with hnull | ⟨t, ht⟩
        · simp [hnull, Held.scalar?] at hh
        · simpa [ht, Held.scalar?] using hh
      exact portion_singleton he hk hc (by simp [hscalar]) (by rw [hscalar]; rfl)

def PutsUpdate (layers : List Layer) (m : Store) : Prop :=
  ∃ v, (IsProfile m → Updates m v) ∧ ∀ key, Puts layers ((outgoing m).write key) key m v

/-- A profile is one value, and what it shows are its changes. What comes back may differ in which
stores return only changed values. -/
def PutsChanges (layers : List Layer) (m : Store) : Prop :=
  ∃ r : Store × Json, (IsProfile m → Updates m r.2) ∧ (Unfiltered m → r.1 = m) ∧
    ∀ key, Puts layers ((outgoing m).write key) key r.1 r.2

/-- What comes after the manager sees the store as it was. -/
theorem adds_writeManager
    (ih : ∀ e ∈ p.entries, ∀ m ∈ e.held.nested, PutsChanges layers m) :
    ∃ members q, Adds layers (writeManager (outgoingEntries p.entries)) p q members ∧
      (q.get? Property.reports.key = p.get? Property.reports.key ∧ q.nulledKeys = p.nulledKeys) ∧
      ((∀ e ∈ p.entries, ∀ m ∈ e.held.nested, Unfiltered m) → q = p) ∧
      (p.onlyChanged = true → IsProfile p → Portion p .manager members) := by
  cases hm : manager? p with
  | none =>
      refine ⟨[], p, Adds.get ?_, ⟨rfl, rfl⟩, fun _ => rfl, ?_⟩
      · simp only [shown_manager, hm]
        exact adds_pure p
      · intro _ hp
        apply portion_nil
        intro e he hk hc
        have hadmits := admits_of_key_eq hp.root he hk
        rcases hadmits with hnull | ⟨m, hmodel⟩
        · exact hnull
        · have hg := get?_of_changed hp.root he hc
          rw [hk, hmodel] at hg
          simp [manager?, hg, Held.model?] at hm
  | some m =>
      obtain ⟨e, he, hme⟩ := nested_of_manager? hm
      obtain ⟨⟨b, v⟩, hv, hback, hputs⟩ := ih e he m hme
      refine ⟨[(Property.manager.key, v)],
        Store.restore Property.manager.key (fun h => (h.mapModel? fun _ => b).getD h) p,
        Adds.get ?_, ⟨?_, ?_⟩, fun hu => ?_, ?_⟩
      · simp only [shown_manager, hm]
        exact adds_component (hputs (some Property.manager.key))
          (fun m => Store.restore Property.manager.key fun h => (h.mapModel? fun _ => m).getD h) p
      · exact Store.get?_restore_of_ne _ _ _ (by decide)
      · refine Store.nulledKeys_restore _ _ fun e _ => ?_
        cases e.held <;> rfl
      · obtain rfl : b = m := hback (hu e he m hme)
        exact restore_manager hm
      · intro ho hp
        obtain ⟨h, hg, hh⟩ := Option.bind_eq_some_iff.mp hm
        obtain ⟨e, he, hk, hc, rfl⟩ := changed_of_get? ho hg
        have hnested : m ∈ e.held.nested := by
          cases hheld : e.held <;> simp_all [Held.model?, Held.nested]
        have hmodel : e.held = .model m := by
          rcases admits_of_key_eq hp.root he hk with hnull | ⟨m', hm'⟩
          · simp [hnull, Held.model?] at hh
          · simpa [hm', Held.model?] using hh
        refine portion_singleton he hk hc (by simp [hmodel]) ?_
        rw [hmodel]
        exact hv (hp.nested he hnested)

/-- Here `q` is what the steps before have made of the store. -/
theorem adds_writeReports {q : Store}
    (hq : q.get? Property.reports.key = p.get? Property.reports.key)
    (ih : ∀ e ∈ p.entries, ∀ m ∈ e.held.nested, PutsChanges layers m) :
    ∃ members b, Adds layers (writeReports (outgoingEntries p.entries)) q b members ∧
      b.nulledKeys = q.nulledKeys ∧
      ((∀ e ∈ p.entries, ∀ m ∈ e.held.nested, Unfiltered m) → b = q) ∧
      (p.onlyChanged = true → IsProfile p → Portion p .reports members) := by
  have hshown : shown? q (outgoingEntries p.entries) .reports =
      shown? p (outgoingEntries p.entries) .reports := by
    rw [shown?, shown?, hq]
  cases hm : reports? p with
  | none =>
      refine ⟨[], q, Adds.get ?_, rfl, fun _ => rfl, ?_⟩
      · simp only [hshown, shown_reports, hm]
        exact adds_pure q
      · intro _ hp
        apply portion_nil
        intro e he hk hc
        rcases admits_of_key_eq hp.root he hk with hnull | ⟨ms, hmodels⟩
        · exact hnull
        · have hg := get?_of_changed hp.root he hc
          rw [hk, hmodels] at hg
          simp [reports?, hg, Held.models?] at hm
  | some ms =>
      obtain ⟨h, hg, hh⟩ := Option.bind_eq_some_iff.mp hm
      obtain rfl : h = .models ms := by
        cases h <;> simp_all [Held.models?]
      have hmq : reports? q = some ms := by rw [reports?, hq, ← reports?, hm]
      -- Each report is a store below `p` and has a value of its own: the array is made of these.
      obtain ⟨rs, hrs⟩ := exists_forall₂ fun m hmem => by
        obtain ⟨e, he, hme⟩ := nested_of_reports? hm (m := m) hmem
        exact ih e he m hme
      have heach : List.Forall₂ (fun o r => Puts layers (Outgoing.write o none) none r.1 r.2)
          (ms.map outgoing) rs :=
        List.forall₂_map_left_iff.mpr (hrs.imp fun m r hr => hr.2.2 none)
      refine ⟨[(Property.reports.key, .array (rs.map Prod.snd))],
        Store.restore Property.reports.key (fun _ => .models (rs.map Prod.fst)) q,
        Adds.get ?_, ?_, fun hu => ?_, ?_⟩
      · simp only [hshown, shown_reports, hm]
        exact adds_component (Outgoing.puts_writeList heach (some Property.reports.key))
          (fun ms => Store.restore Property.reports.key fun _ => .models ms) q
      · refine Store.nulledKeys_restore _ _ fun e hfind => ?_
        rw [held_of_get? (hq.trans hg) hfind]
        rfl
      · have hunfiltered : ∀ m ∈ ms, Unfiltered m := fun m hmem => by
          obtain ⟨e, he, hme⟩ := nested_of_reports? hm hmem
          exact hu e he m hme
        have hback : List.Forall₂ Eq ms (rs.map Prod.fst) := by
          refine List.forall₂_map_right_iff.mpr ?_
          exact ((List.forall₂_and_left _ _).mpr ⟨hunfiltered, hrs⟩).imp fun m r hr =>
            (hr.2.2.1 hr.1).symm
        rw [List.forall₂_eq_eq_eq] at hback
        rw [← hback]
        exact restore_reports hmq
      · intro ho hp
        obtain ⟨e, he, hk, hc, hheld⟩ := changed_of_get? ho hg
        refine portion_singleton he hk hc (by simp [hheld]) ?_
        rw [hheld]
        have hprofiles : ∀ m ∈ ms, IsProfile m := fun m hm => hp.nested he (by rw [hheld]; exact hm)
        have hall := (List.forall₂_and_left _ _).mpr ⟨hprofiles, hrs⟩
        exact ⟨_, rfl, modelsUpdate_iff.mpr (List.forall₂_map_right_iff.mpr
          (hall.imp fun m r hr => hr.2.1 hr.1))⟩

theorem adds_writeNulls (keys : List String) :
    Adds layers (writeNulls keys) p p (keys.map (·, .null)) := by
  induction keys with
  | nil => exact adds_pure p
  | cons key keys ih => exact (adds_call (v := some .null) (fun _ => rfl) p).bind ih

end Fields

theorem keys_portions {p : Store} {portion : Property → Members Json}
    (h : ∀ property, Portion p property (portion property)) (properties : List Property) :
    ((properties.flatMap portion).map Prod.fst).Sublist (properties.map Property.key) := by
  induction properties with
  | nil => simp
  | cons property properties ih =>
      rw [List.flatMap_cons, List.map_append, List.map_cons]
      exact (h property).keys.append ih

/-- The portions of all properties and a null for every property set to null are what a profile
shows of its changes. -/
theorem updates_of_portions {p : Store} (hp : Proper p) {portion : Property → Members Json}
    (h : ∀ property, Portion p property (portion property)) :
    Updates p (.object (Members.ofPairs
      (Property.all.flatMap portion ++ p.nulledKeys.map (·, .null)))) := by
  have hshown : ∀ q ∈ Property.all.flatMap portion, ∃ e ∈ p.entries,
      e.key = q.1 ∧ Store.changed e = true ∧ e.held ≠ .null ∧ HeldUpdate e.held q.2 := by
    intro q hq
    obtain ⟨property, -, hq⟩ := List.mem_flatMap.mp hq
    exact (h property).sound q hq
  have hnull : ∀ key ∈ p.nulledKeys, ∃ e ∈ p.entries,
      e.key = key ∧ e.dirty = true ∧ e.held = .null := by
    intro key hkey
    obtain ⟨e, he, rfl⟩ := List.mem_map.mp hkey
    simp only [List.mem_filter, Bool.and_eq_true] at he
    refine ⟨e, he.1, rfl, he.2.1, ?_⟩
    cases hh : e.held <;> simp_all [Held.isNull]
  -- What is shown is not null, so the portions and the nulls have no key in common.
  have hnodup : (Members.keys (Property.all.flatMap portion ++
      p.nulledKeys.map (·, Json.null))).Nodup := by
    have hkeys : Members.keys (p.nulledKeys.map (·, Json.null)) = p.nulledKeys := by
      simp [Members.keys, Function.comp_def]
    have hfirst : (Property.all.map Property.key).Nodup := by decide
    rw [Members.keys, List.map_append]
    refine List.nodup_append.mpr ⟨hfirst.sublist (keys_portions h _), ?_, ?_⟩
    · show (Members.keys (p.nulledKeys.map (·, Json.null))).Nodup
      rw [hkeys]
      exact hp.nodup.sublist (List.filter_sublist.map _)
    · rintro a ha b hb rfl
      obtain ⟨q, hq, rfl⟩ := List.mem_map.mp ha
      obtain ⟨e, he, hk, -, hn, -⟩ := hshown q hq
      obtain ⟨f, hf, hfk, -, hfn⟩ := hnull q.1 (hkeys ▸ hb)
      obtain rfl : e = f := Store.eq_of_key_eq hp.nodup he hf (hk.trans hfk.symm)
      exact hn hfn
  rw [Members.ofPairs_of_nodup hnodup]
  refine updates_of_entries hp hnodup ?_ ?_
  · intro q hq
    rcases List.mem_append.mp hq with hq | hq
    · obtain ⟨e, he, hk, hc, -, hv⟩ := hshown q hq
      exact ⟨e, he, hk, hc, hv⟩
    · obtain ⟨key, hkey, rfl⟩ := List.mem_map.mp hq
      obtain ⟨e, he, hk, hd, hn⟩ := hnull key hkey
      exact ⟨e, he, hk, by simp [Store.changed, hd], by rw [hn]; rfl⟩
  · intro e he hc
    rw [Members.keys, List.map_append, List.mem_append]
    by_cases hn : e.held = .null
    · right
      have hd : e.dirty = true := by
        simpa [Store.changed, hn, Store.touchedHeld] using hc
      simpa [Store.nulledKeys] using ⟨e, ⟨he, hd, by simp [hn, Held.isNull]⟩, rfl⟩
    · left
      obtain ⟨property, hk, -⟩ := hp.typed e he
      obtain ⟨q, hq, hqk⟩ := List.mem_map.mp ((h property).complete e he hk.symm hc hn)
      have hall : property ∈ Property.all := by cases property <;> decide
      rw [← hk, ← hqk]
      exact List.mem_map_of_mem (List.mem_flatMap.mpr ⟨property, hall, hq⟩)

/-- All fields of a profile, where only its changes are shown. -/
theorem adds_writeFields {layers : List Layer} {p : Store} (ho : p.onlyChanged = true)
    (ih : ∀ e ∈ p.entries, ∀ m ∈ e.held.nested, PutsChanges layers m) :
    ∃ new b, Adds layers (writeFields (outgoingEntries p.entries)) p b new ∧
      ((∀ e ∈ p.entries, ∀ m ∈ e.held.nested, Unfiltered m) → b = p) ∧
      (IsProfile p → Updates p (.object (Members.ofPairs new))) := by
  obtain ⟨manager, q, hmanager, ⟨hsame, hnulled⟩, hback, hmanagerPortion⟩ := adds_writeManager ih
  obtain ⟨reports, b, hreports, hnulled', hback', hreportsPortion⟩ := adds_writeReports hsame ih
  let portion : Property → Members Json
    | .manager => manager
    | .reports => reports
    | property => textMembers p property
  refine ⟨Property.all.flatMap portion ++ p.nulledKeys.map (·, .null), b, ?_, ?_, ?_⟩
  · have hnulls : Adds layers (do writeNulls (Store.nulledKeys (← get))) b b
        (p.nulledKeys.map (·, .null)) := by
      refine Adds.get (f := fun p => writeNulls (Store.nulledKeys p)) ?_
      rw [hnulled', hnulled]
      exact adds_writeNulls _
    have hall := (adds_writeText .id).bind ((adds_writeText .displayName).bind
      ((adds_writeText .jobTitle).bind (hmanager.bind (hreports.bind hnulls))))
    have hnew : Property.all.flatMap portion ++ p.nulledKeys.map (·, Json.null) =
        textMembers p .id ++ (textMembers p .displayName ++ (textMembers p .jobTitle ++
          (manager ++ (reports ++ p.nulledKeys.map (·, Json.null))))) := by
      simp [Property.all, portion]
    rw [hnew]
    exact hall
  · exact fun hu => (hback' hu).trans (hback hu)
  · intro hp
    refine updates_of_portions hp.root fun property => ?_
    cases property with
    | manager => exact hmanagerPortion ho hp
    | reports => exact hreportsPortion ho hp
    | id | displayName | jobTitle => exact portion_text ho hp.root fun _ h => h

theorem updates_setOnlyChanged {p : Store} {b : Bool} {v : Json} :
    Updates (p.setOnlyChanged b) v ↔ Updates p v := by
  obtain ⟨i, o, es⟩ := p
  rfl

theorem isProfile_setOnlyChanged {p : Store} {b : Bool} (hp : IsProfile p) :
    IsProfile (p.setOnlyChanged b) := by
  obtain ⟨i, o, es⟩ := p
  exact Store.everywhere_iff.mpr ⟨⟨hp.root.nodup, hp.root.typed⟩, fun e he m hm => hp.nested he hm⟩

theorem seen_before {layers : List Layer} (hne : layers ≠ []) (p : Profile) :
    (Layer.seen layers .before (glance p)).onlyChanged = true := by
  simp [Layer.seen, hne, glance]

theorem seen_after {layers : List Layer} (hne : layers ≠ []) (p : Profile) :
    (Layer.seen layers .after (glance p)).onlyChanged = false := by
  simp [Layer.seen, hne, glance]

/-- Whatever its stores return, a profile is written as one value. -/
theorem putsChanges {layers : List Layer} (hq : Layer.Quiet layers) (hne : layers ≠ [])
    (p : Store) : PutsChanges layers p := by
  induction p using Store.induct with
  | step p ih =>
      -- The fields are written while the store returns only changed values. What the stores within
      -- it return does not matter: each of them is marked when its own object begins.
      have hnested : ∀ e ∈ (p.setOnlyChanged true).entries, ∀ m ∈ e.held.nested,
          PutsChanges layers m := by
        rw [Store.entries_setOnlyChanged]
        exact ih
      obtain ⟨new, b, hadds, hback, hupdates⟩ := adds_writeFields (by simp) hnested
      rw [Store.entries_setOnlyChanged] at hadds hback
      refine ⟨(b.setOnlyChanged false, .object (Members.ofPairs new)),
        fun hp => updates_setOnlyChanged.mp (hupdates (isProfile_setOnlyChanged hp)), fun hu => ?_,
        fun key => ?_⟩
      · obtain rfl := hback fun e he m hm => hu.nested he hm
        rw [Store.setOnlyChanged_setOnlyChanged, Store.setOnlyChanged_self hu.root]
      · have hobj := puts_object hq key .model glance Store.setOnlyChanged (a := p)
          (by rw [seen_before hne]; exact hadds [])
        rw [seen_after hne] at hobj
        rw [write_outgoing]
        exact hobj

/-- A profile of whose tree no store returns only changed values is written as one value, and the
writing leaves it as it was. -/
theorem putsUpdate {layers : List Layer} (hq : Layer.Quiet layers) (hne : layers ≠ [])
    (p : Store) (hu : Unfiltered p) : PutsUpdate layers p := by
  obtain ⟨⟨b, v⟩, hv, hback, hputs⟩ := putsChanges hq hne p
  obtain rfl : b = p := hback hu
  exact ⟨v, hv, hputs⟩

theorem faithful_of_heldUpdate {held : Held Store} {u : Json} (hu : HeldUpdate held u)
    (hnested : ∀ n ∈ held.nested, ∀ w, Updates n w → w.Faithful) : u.Faithful := by
  cases held with
  | null =>
      rw [HeldUpdate] at hu
      rw [hu]
      constructor <;> trivial
  | scalar k s =>
      cases k with
      | string =>
          rw [HeldUpdate] at hu
          rw [hu]
          exact Json.faithful_string s
      | _ => exact hu.elim
  | model n => exact hnested n (List.mem_singleton_self n) u hu
  | models ns =>
      obtain ⟨vs, rfl, hns⟩ := hu
      rw [Json.faithful_array_iff]
      intro w hw
      obtain ⟨n, hn, hnw⟩ := exists_of_forall₂_of_mem (modelsUpdate_iff.mp hns).flip hw
      exact hnested n hn w hnw
  | plain n | strings l => exact hu.elim

/-- The object of the changes of a profile has no number in it, and no names but those of
properties. -/
theorem faithful_of_updates {p : Store} (hp : IsProfile p) {v : Json} (hv : Updates p v) :
    v.Faithful := by
  induction p using Store.induct generalizing v with
  | step p ih =>
      obtain ⟨members, rfl, hnodup, hentries⟩ := entries_of_updates hp.root hv
      refine Json.faithful_object_iff.mpr ⟨hnodup, fun m hm => ?_, fun m hm => ?_⟩
      · obtain ⟨e, he, hk, -⟩ := hentries m (List.mem_of_mem_head? hm)
        obtain ⟨property, hproperty, -⟩ := hp.root.typed e he
        rw [← hk, ← hproperty]
        cases property <;> decide
      · obtain ⟨e, he, -, hu⟩ := hentries m hm
        exact faithful_of_heldUpdate hu fun n hn w hw => ih e he n hn (hp.nested he hn) hw

/-- Behind one layer that keeps stores in step, the payload of a profile is the object of its
changes at every depth, and afterwards every store of the tree is as it was. Unless too many objects
lie within each other, the payload is read as that object. -/
theorem serialize_updates {s : Serializer} {r : Encoders}
    (hs : s.encoders = r.mapAll (Encoder.wrap .changes)) {contentType key : String}
    (hf : r.find contentType = .ok (key, .json)) {p : Profile} (hp : IsProfile p)
    (hu : Unfiltered p) :
    ∃ v, (s.serialize contentType p).result = .ok ⟨ContentType.json, Bytes.ofString v.text⟩ ∧
      Updates p v ∧ (s.serialize contentType p).model = p ∧
      (v.nesting < Json.nestingLimit → Json.ofString? v.text = some v) := by
  have hfind : s.encoders.find contentType = .ok (key, Encoder.json.wrap .changes) := by
    rw [hs, Registry.find_mapAll, hf]
    rfl
  have hquiet : Layer.Quiet [.changes] := Layer.quiet_replicate 1
  obtain ⟨v, hv, hputs⟩ := putsUpdate hquiet (by simp) p hu
  have hsend := Serializer.send_of_puts (Serializer.output_of_find hfind) (hputs none) p
    (fun _ => none)
  exact ⟨v, congrArg Sent.result hsend, hv hp, congrArg Sent.model hsend,
    (faithful_of_updates hp (hv hp)).ofString?_text⟩

def edited : Profile :=
  ⟨true, false, [
    ⟨"id", false, .scalar .string "u1"⟩,
    ⟨"displayName", true, .null⟩,
    ⟨"manager", false, .model ⟨true, false, [
      ⟨"id", false, .scalar .string "m1"⟩, ⟨"jobTitle", true, .scalar .string "Lead"⟩]⟩⟩,
    ⟨"reports", false, .models [
      ⟨true, false, [⟨"id", false, .scalar .string "r1"⟩]⟩,
      ⟨true, false, [⟨"id", true, .scalar .string "r2"⟩]⟩]⟩]⟩

theorem serialize_updates_edited :
    IsProfile edited ∧ Unfiltered edited ∧ ∃ v,
      (({ encoders := Encoders.stock.mapAll (Encoder.wrap .changes) } : Serializer).serialize
        ContentType.json edited).result = .ok ⟨ContentType.json, Bytes.ofString v.text⟩ ∧
      Updates edited v ∧
      (({ encoders := Encoders.stock.mapAll (Encoder.wrap .changes) } : Serializer).serialize
        ContentType.json edited).model = edited ∧
      (v.nesting < Json.nestingLimit → Json.ofString? v.text = some v) := by
  have hp : IsProfile edited := by
    simp [IsProfile, edited, Held.nested, proper_iff, Store.allKeys, Property.exists_iff,
      Property.key, Property.Admits]
  have hu : Unfiltered edited := by
    simp [Unfiltered, edited, Held.nested]
  have hf : Encoders.stock.find ContentType.json = .ok (ContentType.json, .json) := rfl
  exact ⟨hp, hu, serialize_updates rfl hf hp hu⟩

end Profile

end Marshal
