import Mathlib.Data.List.Forall2
import Mathlib.Tactic.MkIffOfInductiveProp
import Marshal.Proofs.Store.Lookup
import Marshal.Proofs.Store.Tree
import Marshal.Proofs.Writing.Json
import Marshal.Serializer

/-!
Partial updates. Between layers that keep stores in step, a profile is written as an object of its
changed properties, and so is every profile in it; when it has been written, nothing about it is
different from before.
-/

namespace Marshal

namespace Profile

theorem Property.exists_iff {P : Property → Prop} :
    (∃ property, P property) ↔
      P id ∨ P displayName ∨ P jobTitle ∨ P manager ∨ P reports := by
  constructor
  · rintro ⟨property, h⟩
    cases property <;> simp [h]
  · rintro (h | h | h | h | h) <;> exact ⟨_, h⟩

def Property.Admits : Property → Held Store → Prop
  | id, h | displayName, h | jobTitle, h => h = .null ∨ ∃ s, h = .scalar .string s
  | manager, h => h = .null ∨ ∃ m, h = .model m
  | reports, h => h = .null ∨ ∃ ms, h = .models ms

/-- The store of a profile holds properties only, each at most once and with a value of its own
type. -/
@[mk_iff]
structure Proper (s : Store) : Prop where
  nodup : s.allKeys.Nodup
  typed : ∀ e ∈ s.entries, ∃ property : Property, property.key = e.key ∧ property.Admits e.held

mutual

/-- The value is an object of exactly the changed entries of a store, each shown as it is held. -/
def Updates : Store → Json → Prop
  | ⟨i, o, es⟩, v => ∃ members : Members Json, v = .object members ∧
      members.keys.Perm (Store.dirtyKeys ⟨i, o, es⟩) ∧ EntriesUpdate es members

def EntriesUpdate : List (Entry Store) → Members Json → Prop
  | [], _ => True
  | ⟨key, dirty, held⟩ :: es, members =>
    (Store.changed ⟨key, dirty, held⟩ = true →
      ∃ v, members.get? key = some v ∧ HeldUpdate held v) ∧ EntriesUpdate es members

/-- A text is shown as it is, nothing as null, and a profile as the object of its own changes. -/
def HeldUpdate : Held Store → Json → Prop
  | .null, v => v = .null
  | .scalar .string s, v => v = .string s
  | .model m, v => Updates m v
  | .models ms, v => ∃ vs, v = .array vs ∧ ModelsUpdate ms vs
  | _, _ => False

def ModelsUpdate : List Store → List Json → Prop
  | [], [] => True
  | m :: ms, v :: vs => Updates m v ∧ ModelsUpdate ms vs
  | _, _ => False

end

theorem entriesUpdate_iff {es : List (Entry Store)} {members : Members Json} :
    EntriesUpdate es members ↔ ∀ e ∈ es, Store.changed e = true →
      ∃ v, members.get? e.key = some v ∧ HeldUpdate e.held v := by
  induction es with
  | nil => simp [EntriesUpdate]
  | cons e es ih => rw [EntriesUpdate, ih, List.forall_mem_cons]

theorem modelsUpdate_iff {ms : List Store} {vs : List Json} :
    ModelsUpdate ms vs ↔ List.Forall₂ Updates ms vs := by
  induction ms generalizing vs with
  | nil => cases vs <;> simp [ModelsUpdate]
  | cons m ms ih => cases vs <;> simp [ModelsUpdate, ih]

theorem updates_iff {p : Store} {v : Json} :
    Updates p v ↔ ∃ members : Members Json, v = .object members ∧
      members.keys.Perm p.dirtyKeys ∧ ∀ e ∈ p.entries, Store.changed e = true →
        ∃ v, members.get? e.key = some v ∧ HeldUpdate e.held v := by
  obtain ⟨i, o, es⟩ := p
  simp only [Updates, entriesUpdate_iff, Store.entries_mk]

/-- A changed key has exactly one value, where the members are pieced together from entries. -/
theorem updates_of_entries {p : Store} (hp : Proper p) {members : Members Json}
    (hnodup : members.keys.Nodup)
    (hsound : ∀ q ∈ members, ∃ e ∈ p.entries,
      e.key = q.1 ∧ Store.changed e = true ∧ HeldUpdate e.held q.2)
    (hcomplete : ∀ e ∈ p.entries, Store.changed e = true → e.key ∈ members.keys) :
    Updates p (.object members) := by
  have hkeys : members.keys.Perm p.dirtyKeys := by
    have hdirty : p.dirtyKeys.Nodup :=
      hp.nodup.sublist (List.filter_sublist.map _)
    apply (List.perm_ext_iff_of_nodup hnodup hdirty).mpr
    intro key
    constructor
    · intro hkey
      obtain ⟨q, hq, rfl⟩ := List.mem_map.mp hkey
      obtain ⟨e, he, hk, hc, -⟩ := hsound q hq
      exact List.mem_map.mpr ⟨e, List.mem_filter.mpr ⟨he, hc⟩, hk⟩
    · intro hkey
      obtain ⟨e, he, rfl⟩ := List.mem_map.mp hkey
      obtain ⟨hmem, hc⟩ := List.mem_filter.mp he
      exact hcomplete e hmem hc
  obtain ⟨i, o, es⟩ := p
  refine ⟨members, rfl, hkeys, entriesUpdate_iff.mpr ?_⟩
  intro e he hc
  obtain ⟨q, hq, hk⟩ := List.mem_map.mp (hcomplete e he hc)
  obtain ⟨f, hf, hfk, -, hv⟩ := hsound q hq
  obtain rfl : f = e := Store.eq_of_key_eq hp.nodup hf he (hfk.trans hk)
  exact ⟨q.2, hk ▸ Members.get?_of_mem hnodup hq, hv⟩

theorem entries_of_updates {p : Store} (hp : Proper p) {v : Json} (hv : Updates p v) :
    ∃ members : Members Json, v = .object members ∧ members.keys.Nodup ∧
      ∀ q ∈ members, ∃ e ∈ p.entries, e.key = q.1 ∧ HeldUpdate e.held q.2 := by
  obtain ⟨members, rfl, hkeys, hentries⟩ := updates_iff.mp hv
  have hnodup : members.keys.Nodup :=
    hkeys.nodup_iff.mpr (hp.nodup.sublist (List.filter_sublist.map _))
  refine ⟨members, rfl, hnodup, fun q hq => ?_⟩
  obtain ⟨e, he, hk⟩ := List.mem_map.mp (hkeys.subset (List.mem_map_of_mem hq))
  obtain ⟨he, hc⟩ := List.mem_filter.mp he
  obtain ⟨u, hget, hu⟩ := hentries e he hc
  rw [hk, Members.get?_of_mem hnodup hq] at hget
  obtain rfl := Option.some.inj hget
  exact ⟨e, he, hk, hu⟩

end Profile

end Marshal
