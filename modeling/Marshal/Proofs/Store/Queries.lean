import Marshal.Proofs.Store.Lookup
import Marshal.Proofs.Store.Tree

/-!
What a store answers about changes, in terms of the marks on its entries and on the entries of the
stores that it reaches over linked models.
-/

namespace Marshal

namespace Store

/-- Some entry of the store or of a store that it reaches is marked. -/
def Marked (s : Store) : Prop :=
  ∃ t, Reaches s t ∧ ∃ e ∈ t.entries, e.dirty = true

theorem marked_iff {s : Store} :
    Marked s ↔ ∃ e ∈ s.entries, e.dirty = true ∨ ∃ m ∈ e.held.linked, Marked m := by
  constructor
  · rintro ⟨t, ht, f, hf, hd⟩
    cases ht with
    | here => exact ⟨f, hf, .inl hd⟩
    | inside he hm ht => exact ⟨_, he, .inr ⟨_, hm, t, ht, f, hf, hd⟩⟩
  · rintro ⟨e, he, hd | ⟨m, hm, t, ht, f, hf, hd⟩⟩
    · exact ⟨s, .here s, e, he, hd⟩
    · exact ⟨t, .inside he hm ht, f, hf, hd⟩

theorem touchedModels_iff {ms : List Store} :
    touchedModels ms = true ↔ ∃ m ∈ ms, m.touched = true := by
  induction ms with
  | nil => simp [touchedModels]
  | cons m ms ih => simp [touchedModels, ih]

theorem touchedHeld_iff {h : Held Store} :
    touchedHeld h = true ↔ ∃ m ∈ h.linked, m.touched = true := by
  cases h <;> simp [touchedHeld, Held.linked, touchedModels_iff]

theorem touchedEntries_iff {es : List (Entry Store)} :
    touchedEntries es = true ↔ ∃ e ∈ es, changed e = true := by
  induction es with
  | nil => simp [touchedEntries]
  | cons e es ih => simp [touchedEntries, ih, changed]

theorem touched_iff (s : Store) : s.touched = true ↔ Marked s := by
  induction s using Store.induct with
  | step s ih =>
      -- Both sides are a search through the entries, and they agree below every linked model by
      -- induction.
      obtain ⟨i, o, es⟩ := s
      rw [touched, touchedEntries_iff, marked_iff]
      refine exists_congr fun e => and_congr_right fun he => ?_
      rw [changed, Bool.or_eq_true, touchedHeld_iff]
      refine or_congr_right (exists_congr fun m => and_congr_right fun hm => ?_)
      exact ih e he m (Held.linked_subset_nested _ hm)

/-- An entry has changed if it is marked, or if something is marked in a model linked there. -/
theorem changed_iff {e : Entry Store} :
    changed e = true ↔ e.dirty = true ∨ ∃ m ∈ e.held.linked, Marked m := by
  rw [changed, Bool.or_eq_true, touchedHeld_iff]
  exact or_congr_right (exists_congr fun m => and_congr_right fun _ => touched_iff m)

theorem isDirty_iff {s : Store} {key : String} :
    s.isDirty key = true ↔ ∃ e, s.find? key = some e ∧
      (e.dirty = true ∨ ∃ m ∈ e.held.linked, Marked m) := by
  simp only [isDirty, Option.any_eq_true, changed_iff]

theorem dirtyKeys_eq_nil_iff {s : Store} : s.dirtyKeys = [] ↔ ¬ Marked s := by
  rw [dirtyKeys, List.map_eq_nil_iff, List.filter_eq_nil_iff, marked_iff]
  simp only [changed_iff, not_exists, not_and]

/-- Keys picked entry by entry are keys picked by what is found under them. -/
theorem map_key_filter {s : Store} (hn : s.allKeys.Nodup) (p : Entry Store → Bool) :
    (s.entries.filter p).map (·.key) = s.allKeys.filter fun key => (s.find? key).any p := by
  rw [allKeys, List.filter_map]
  congr 1
  apply List.filter_congr
  intro e he
  rw [Function.comp_apply, (find?_eq_some_iff hn).mpr ⟨he, rfl⟩, Option.any_some]

theorem dirtyKeys_eq {s : Store} (hn : s.allKeys.Nodup) :
    s.dirtyKeys = s.allKeys.filter s.isDirty :=
  map_key_filter hn changed

theorem nulledKeys_eq {s : Store} (hn : s.allKeys.Nodup) :
    s.nulledKeys = s.allKeys.filter fun key =>
      (s.find? key).any fun e => e.dirty && e.held.isNull :=
  map_key_filter hn _

theorem keys_eq (s : Store) : s.keys = if s.onlyChanged then s.dirtyKeys else s.allKeys := by
  cases ho : s.onlyChanged with
  | true =>
      have hv : s.visible = changed := by
        funext e
        simp [visible, ho]
      rw [keys, hv]
      rfl
  | false =>
      have hv : s.visible = fun _ => true := by
        funext e
        simp [visible, ho]
      simp [keys, hv, allKeys]

theorem get?_eq (s : Store) (key : String) :
    s.get? key =
      if s.onlyChanged = true ∧ s.isDirty key = false then none
      else (s.find? key).map (·.held) := by
  cases hf : s.find? key with
  | none => simp [get?, hf]
  | some e =>
      cases ho : s.onlyChanged <;> cases hc : changed e <;>
        simp [get?, isDirty, visible, hf, ho, hc, Option.filter]

end Store

end Marshal
