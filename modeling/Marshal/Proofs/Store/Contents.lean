import Marshal.Proofs.Json.Kind
import Marshal.Proofs.Json.Same
import Marshal.Proofs.Store.Lookup
import Marshal.Proofs.Store.Tree

/-!
The full contents of a store: all that it and the stores within it hold, whatever is marked and
whatever they show. Marks come and go without a change of the contents.
-/

namespace Marshal

namespace Store

mutual

def contents : Store → Json
  | ⟨_, _, es⟩ => .object (contentsEntries es)

def contentsEntries : List (Entry Store) → Members Json
  | [] => []
  | ⟨key, _, held⟩ :: es => (key, contentsHeld held) :: contentsEntries es

def contentsHeld : Held Store → Json
  | .null => .null
  | .scalar k v => k.json v
  | .strings l => .array (l.map .string)
  | .plain m => contents m
  | .model m => contents m
  | .models ms => .array (contentsEach ms)

def contentsEach : List Store → List Json
  | [] => []
  | m :: ms => contents m :: contentsEach ms

end

theorem contentsEntries_eq (es : List (Entry Store)) :
    contentsEntries es = es.map fun e => (e.key, contentsHeld e.held) := by
  induction es with
  | nil => rfl
  | cons e es ih => rw [contentsEntries, ih, List.map_cons]

theorem contentsEach_eq (ms : List Store) : contentsEach ms = ms.map contents := by
  induction ms with
  | nil => rfl
  | cons m ms ih => rw [contentsEach, ih, List.map_cons]

/-- A list of stores holds what an array says if each of them holds what its item says. -/
theorem same_contentsEach {R : Store → Json → Prop} {ms : List Store} {vs : List Json}
    (h : ∀ m ∈ ms, ∀ v, R m v → Json.Same m.contents v) (hvs : List.Forall₂ R ms vs) :
    Json.Same (.array (contentsEach ms)) (.array vs) := by
  rw [contentsEach_eq]
  refine Json.same_array (List.forall₂_map_left_iff.mpr ?_)
  induction hvs with
  | nil => exact .nil
  | cons hv _ ih =>
      obtain ⟨hm, hms⟩ := List.forall_mem_cons.mp h
      exact .cons (hm _ hv) (ih hms)

theorem contents_eq (s : Store) :
    s.contents = .object (s.entries.map fun e => (e.key, contentsHeld e.held)) := by
  obtain ⟨i, o, es⟩ := s
  rw [contents, contentsEntries_eq, entries_mk]

/-- The members of the contents have the keys of the store. -/
theorem keys_contents (s : Store) :
    Members.keys (s.entries.map fun e => (e.key, contentsHeld e.held)) = s.allKeys := by
  simp [Members.keys, allKeys, Function.comp_def]

theorem contentsHeld_markHeld {i : Option Bool} {d : Bool} {h : Held Store}
    (ih : ∀ m ∈ h.nested, (m.mark i d).contents = m.contents) :
    contentsHeld (markHeld i d h) = contentsHeld h := by
  cases h with
  | model m => exact ih m (by simp [Held.nested])
  | models ms =>
      rw [markHeld, markModels_eq, contentsHeld, contentsHeld, contentsEach_eq, contentsEach_eq,
        List.map_map]
      exact congrArg Json.array (List.map_congr_left ih)
  | _ => rfl

@[simp] theorem contents_mark (i : Option Bool) (d : Bool) (s : Store) :
    (s.mark i d).contents = s.contents := by
  induction s using Store.induct with
  | step s ih =>
      rw [contents_eq, contents_eq, entries_mark, List.map_map]
      refine congrArg Json.object (List.map_congr_left fun e he => ?_)
      rw [Function.comp_apply, contentsHeld_markHeld (ih e he)]

theorem mark_eq (i : Option Bool) (d : Bool) (s : Store) :
    s.mark i d = ⟨i.getD s.initialized, s.onlyChanged,
      s.entries.map fun e => ⟨e.key, d, markHeld i d e.held⟩⟩ := by
  obtain ⟨c, o, es⟩ := s
  rw [mark, markEntries_eq]
  rfl

theorem linked_markHeld (i : Option Bool) (d : Bool) (h : Held Store) :
    (markHeld i d h).linked = h.linked.map (mark i d) := by
  cases h <;> simp [markHeld, Held.linked, markModels_eq]

/-- Where all are told whether they are complete, it does not matter what they were told before. -/
theorem mark_mark (i : Option Bool) (c d d' : Bool) (s : Store) :
    (s.mark i d).mark (some c) d' = s.mark (some c) d' := by
  induction s using Store.induct with
  | step s ih =>
      have hheld (e : Entry Store) (he : e ∈ s.entries) :
          markHeld (some c) d' (markHeld i d e.held) = markHeld (some c) d' e.held := by
        cases hh : e.held with
        | model m => exact congrArg Held.model (ih e he m (by simp [hh, Held.nested]))
        | models ms =>
            simp only [markHeld, markModels_eq, List.map_map]
            exact congrArg Held.models
              (List.map_congr_left fun m hm => ih e he m (by simp [hh, Held.nested, hm]))
        | _ => rfl
      rw [mark_eq (some c), mark_eq (some c), entries_mark, List.map_map, mark_eq i]
      refine congrArg (Store.mk c s.onlyChanged) (List.map_congr_left fun e he => ?_)
      rw [Function.comp_apply, hheld e he]

/-- A new key comes last. -/
theorem entries_set_of_not_mem {s : Store} {key : String} (h : key ∉ s.allKeys)
    (held : Held Store) : (s.set key held).entries = s.entries ++ [⟨key, s.initialized, held⟩] := by
  rw [set, entries_withEntries]
  rw [allKeys] at h
  generalize s.entries = es at h
  induction es with
  | nil => rfl
  | cons e es ih =>
      simp only [List.map_cons, List.mem_cons, not_or] at h
      rw [putEntry, if_neg (Ne.symm h.1), ih h.2, List.cons_append]

end Store

end Marshal
