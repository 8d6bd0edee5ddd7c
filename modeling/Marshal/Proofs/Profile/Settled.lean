import Marshal.Proofs.Profile.Writing
import Marshal.Proofs.Store.Contents
import Marshal.Proofs.Store.Queries

/-!
Profiles that are settled: complete, with all they hold in sight, and marked all over or not at all.
Marking a whole tree settles it.
-/

namespace Marshal

namespace Profile

/-- The store of a profile that is complete, shows everything, and whose entries are all marked, or
all unmarked. -/
structure Settled (marked : Bool) (s : Store) : Prop where
  proper : Proper s
  initialized : s.initialized = true
  shows : s.onlyChanged = false
  marks : ∀ e ∈ s.entries, e.dirty = marked

theorem Property.Admits.linked_eq {property : Property} {h : Held Store}
    (ha : property.Admits h) : h.linked = h.nested := by
  cases property with
  | id | displayName | jobTitle => rcases ha with rfl | ⟨s, rfl⟩ <;> rfl
  | manager => rcases ha with rfl | ⟨m, rfl⟩ <;> rfl
  | reports => rcases ha with rfl | ⟨ms, rfl⟩ <;> rfl

theorem Property.Admits.markHeld {property : Property} {h : Held Store} (ha : property.Admits h)
    (i : Option Bool) (d : Bool) : property.Admits (Store.markHeld i d h) := by
  cases property with
  | id | displayName | jobTitle =>
      rcases ha with rfl | ⟨s, rfl⟩
      · exact .inl rfl
      · exact .inr ⟨s, rfl⟩
  | manager =>
      rcases ha with rfl | ⟨m, rfl⟩
      · exact .inl rfl
      · exact .inr ⟨_, rfl⟩
  | reports =>
      rcases ha with rfl | ⟨ms, rfl⟩
      · exact .inl rfl
      · exact .inr ⟨_, rfl⟩

theorem Proper.set {s : Store} (h : Proper s) {property : Property} {held : Held Store}
    (ha : property.Admits held) : Proper (Store.set s property.key held) := by
  refine ⟨Store.nodup_allKeys_set h.nodup .., fun e he => ?_⟩
  rcases Store.mem_entries_set s _ he with rfl | he
  · exact ⟨property, rfl, ha⟩
  · exact h.typed e he

theorem Proper.mark {s : Store} (h : Proper s) (i : Option Bool) (d : Bool) :
    Proper (s.mark i d) := by
  constructor
  · rw [Store.allKeys_mark]
    exact h.nodup
  · intro e he
    rw [Store.entries_mark] at he
    obtain ⟨f, hf, rfl⟩ := List.mem_map.mp he
    obtain ⟨property, hk, ha⟩ := h.typed f hf
    exact ⟨property, hk, ha.markHeld i d⟩

/-- Marks settle a profile that shows everything, once all its stores are complete. -/
theorem settled_mark {s : Store} {i : Option Bool} {d : Bool}
    (h : Store.Everywhere
      (fun t => Proper t ∧ i.getD t.initialized = true ∧ t.onlyChanged = false) s) :
    Store.Everywhere (Settled d) (s.mark i d) := by
  induction s using Store.induct with
  | step s ih =>
      obtain ⟨hp, hi, ho⟩ := h.root
      refine Store.everywhere_iff.mpr ⟨⟨hp.mark i d, ?_, ?_, ?_⟩, ?_⟩
      · cases s
        exact hi
      · cases s
        exact ho
      · intro e he
        rw [Store.entries_mark] at he
        obtain ⟨e, -, rfl⟩ := List.mem_map.mp he
        rfl
      · intro e he m hm
        rw [Store.entries_mark] at he
        obtain ⟨f, hf, rfl⟩ := List.mem_map.mp he
        obtain ⟨property, -, ha⟩ := hp.typed f hf
        rw [← (ha.markHeld i d).linked_eq, Store.linked_markHeld, ha.linked_eq] at hm
        obtain ⟨n, hn, rfl⟩ := List.mem_map.mp hm
        exact ih f hf n hn (h.nested hf hn)

theorem Settled.isProfile {d : Bool} {p : Store} (h : Store.Everywhere (Settled d) p) :
    IsProfile p := fun t ht => (h t ht).proper

theorem Settled.unfiltered {d : Bool} {p : Store} (h : Store.Everywhere (Settled d) p) :
    Unfiltered p := fun t ht => (h t ht).shows

theorem Settled.dirtyKeys_eq_nil {p : Store} (h : Store.Everywhere (Settled false) p) :
    p.dirtyKeys = [] := by
  rw [Store.dirtyKeys_eq_nil_iff]
  rintro ⟨t, ht, e, he, hd⟩
  rw [(h t ht.within).marks e he] at hd
  cases hd

theorem Settled.dirtyKeys_eq_allKeys {p : Store} (h : Settled true p) :
    p.dirtyKeys = p.allKeys := by
  rw [Store.dirtyKeys, Store.allKeys, List.filter_eq_self.mpr]
  intro e he
  rw [Store.changed, h.marks e he, Bool.true_or]

/-- Where nothing has changed, the object of changes has no members. -/
theorem updates_of_clean_iff {p : Store} (h : p.dirtyKeys = []) {v : Json} :
    Updates p v ↔ v = .object [] := by
  rw [updates_iff, h]
  constructor
  · rintro ⟨members, rfl, hkeys, -⟩
    rw [List.map_eq_nil_iff.mp hkeys.eq_nil]
  · rintro rfl
    refine ⟨[], rfl, .refl _, fun e he hc => ?_⟩
    have hkey : e.key ∈ p.dirtyKeys := List.mem_map_of_mem (List.mem_filter.mpr ⟨he, hc⟩)
    rw [h] at hkey
    cases hkey

/-- Behind layers that keep stores in step, a profile that shows everything is written as the object
of its changes and stays as it is. -/
theorem exists_update_of_wrapped {s : Serializer} {w : Encoders} {n : Nat}
    {contentType key : String}
    (hs : s.encoders = (Registry.mapAll (Encoder.wrap .changes))^[n + 1] w)
    (hw : w.find contentType = .ok (key, .json)) {p : Profile} (hp : IsProfile p)
    (hu : Unfiltered p) :
    ∃ v, Updates p v ∧ s.serialize contentType p =
      ⟨.ok ⟨ContentType.json, Bytes.ofString v.text⟩, p, []⟩ := by
  have hf := Encoders.find_wrapped (n := n + 1) hw
  rw [← hs] at hf
  obtain ⟨v, hv, hputs⟩ :=
    putsUpdate (Layer.quiet_replicate (n + 1)) (List.cons_ne_nil _ _) p hu
  have hout := Serializer.output_of_find hf
  exact ⟨v, hv hp, Serializer.send_of_puts hout (hputs none) p (fun _ => none)⟩

end Profile

end Marshal
