import Mathlib.Data.List.Nodup
import Marshal.Store.Basic

/-!
Looking an entry up by its key. Where no key is repeated, the entry that is found is the only one of
its key.
-/

namespace Marshal

namespace Store

@[simp] theorem entries_mk (i o : Bool) (es : List (Entry Store)) :
    (Store.mk i o es).entries = es := rfl

@[simp] theorem onlyChanged_mk (i o : Bool) (es : List (Entry Store)) :
    (Store.mk i o es).onlyChanged = o := rfl

@[simp] theorem entries_setOnlyChanged (b : Bool) (s : Store) :
    (s.setOnlyChanged b).entries = s.entries := by
  cases s
  rfl

@[simp] theorem onlyChanged_setOnlyChanged (b : Bool) (s : Store) :
    (s.setOnlyChanged b).onlyChanged = b := by
  cases s
  rfl

@[simp] theorem setOnlyChanged_setOnlyChanged (a b : Bool) (s : Store) :
    (s.setOnlyChanged a).setOnlyChanged b = s.setOnlyChanged b := by
  cases s
  rfl

@[simp] theorem onlyChanged_restore (key : String) (f : Held Store → Held Store) (s : Store) :
    (s.restore key f).onlyChanged = s.onlyChanged := by
  cases s
  rfl

theorem setOnlyChanged_self {b : Bool} {s : Store} (h : s.onlyChanged = b) :
    s.setOnlyChanged b = s := by
  cases s
  exact h ▸ rfl

/-- Two entries of one key are the same entry, where no key is repeated. -/
theorem eq_of_key_eq {es : List (Entry Store)} (hn : (es.map (·.key)).Nodup) {e f : Entry Store}
    (he : e ∈ es) (hf : f ∈ es) (hk : e.key = f.key) : e = f :=
  List.inj_on_of_nodup_map hn he hf hk

theorem find?_eq_some {s : Store} {key : String} {e : Entry Store} (h : s.find? key = some e) :
    e ∈ s.entries ∧ e.key = key :=
  ⟨List.mem_of_find?_eq_some h, by simpa using List.find?_some h⟩

theorem find?_eq_some_iff {s : Store} (hn : s.allKeys.Nodup) {key : String} {e : Entry Store} :
    s.find? key = some e ↔ e ∈ s.entries ∧ e.key = key := by
  refine ⟨find?_eq_some, ?_⟩
  rintro ⟨he, rfl⟩
  cases hf : s.find? e.key with
  | none =>
      have := List.find?_eq_none.mp hf e he
      simp at this
  | some f =>
      obtain ⟨hmem, hkey⟩ := find?_eq_some hf
      rw [eq_of_key_eq hn hmem he hkey]

theorem get?_eq_some_iff {s : Store} (hn : s.allKeys.Nodup) {key : String} {h : Held Store} :
    s.get? key = some h ↔
      ∃ e ∈ s.entries, e.key = key ∧ s.visible e = true ∧ e.held = h := by
  simp only [get?, Option.map_eq_some_iff, Option.filter_eq_some_iff, find?_eq_some_iff hn]
  constructor
  · rintro ⟨e, ⟨⟨he, hkey⟩, hv⟩, rfl⟩
    exact ⟨e, he, hkey, hv, rfl⟩
  · rintro ⟨e, he, hkey, hv, rfl⟩
    exact ⟨e, ⟨⟨he, hkey⟩, hv⟩, rfl⟩

/-- A value that is put back as it was leaves the store as it was. -/
theorem restore_of_find? {s : Store} {key : String} {f : Held Store → Held Store}
    (h : ∀ e, s.find? key = some e → f e.held = e.held) : s.restore key f = s := by
  obtain ⟨i, o, es⟩ := s
  have hes : restoreEntries key f es = es := by
    induction es with
    | nil => rfl
    | cons e es ih =>
        by_cases hk : e.key = key
        · have he := h e (by simp [find?, hk])
          rw [restoreEntries, if_pos hk, he]
        · rw [restoreEntries, if_neg hk, ih]
          intro e' he'
          apply h e'
          simpa [find?, hk] using he'
  simp only [restore, withEntries, entries_mk, hes]

/-! ### Looking up after a change -/

section Change

variable (s : Store) (key : String)

@[simp] theorem entries_withEntries (es : List (Entry Store)) :
    (s.withEntries es).entries = es := by
  cases s
  rfl

omit s in
/-- Behind an entry of another key, a change under `key` is still a change under `key` only. -/
theorem find?_cons_of_ne {x : Entry Store} (hx : x.key ≠ key) {es es' : List (Entry Store)}
    {found : Option (Entry Store)} {k : String}
    (h : es'.find? (·.key == k) = if k = key then found else es.find? (·.key == k)) :
    (x :: es').find? (·.key == k) =
      if k = key then found else (x :: es).find? (·.key == k) := by
  by_cases hk : x.key = k
  · have hne : k ≠ key := hk ▸ hx
    simp [hk, hne]
  · rw [List.find?_cons_of_neg (by simpa using hk), h, List.find?_cons_of_neg (by simpa using hk)]

theorem find?_set (held : Held Store) (k : String) :
    (s.set key held).find? k =
      if k = key then some ⟨key, s.initialized, held⟩ else s.find? k := by
  rw [set, find?, find?, entries_withEntries]
  induction s.entries with
  | nil => by_cases hk : k = key <;> simp [putEntry, hk, Ne.symm]
  | cons x es ih =>
      -- The entry that is put takes the place of the first one of its key.
      by_cases hx : x.key = key
      · by_cases hk : k = key
        · simp [putEntry, hx, hk]
        · simp [putEntry, hx, hk, Ne.symm hk]
      · rw [putEntry, if_neg hx]
        exact find?_cons_of_ne key hx ih

theorem allKeys_set (held : Held Store) :
    (s.set key held).allKeys =
      if key ∈ s.allKeys then s.allKeys else s.allKeys ++ [key] := by
  rw [set, allKeys, allKeys, entries_withEntries]
  induction s.entries with
  | nil => simp [putEntry]
  | cons x es ih =>
      by_cases hx : x.key = key
      · simp [putEntry, hx]
      · rw [putEntry, if_neg hx, List.map_cons, ih]
        by_cases hk : key ∈ es.map (·.key)
        · simp [hk]
        · simp [hk, Ne.symm hx]

theorem nodup_allKeys_set {s : Store} (h : s.allKeys.Nodup) (key : String) (held : Held Store) :
    (s.set key held).allKeys.Nodup := by
  rw [allKeys_set]
  split_ifs with hk
  · exact h
  · exact List.nodup_append.mpr
      ⟨h, List.nodup_singleton key, by simpa using fun k hmem => ne_of_mem_of_not_mem hmem hk⟩

theorem mem_entries_set {held : Held Store} {e : Entry Store}
    (h : e ∈ (s.set key held).entries) : e = ⟨key, s.initialized, held⟩ ∨ e ∈ s.entries := by
  rw [set, entries_withEntries] at h
  generalize s.entries = es at h
  induction es with
  | nil => exact .inl (List.mem_singleton.mp h)
  | cons x es ih =>
      rw [putEntry] at h
      split_ifs at h
      · exact (List.mem_cons.mp h).imp_right (List.mem_cons_of_mem x)
      · rcases List.mem_cons.mp h with rfl | h
        · exact .inr List.mem_cons_self
        · exact (ih h).imp_right (List.mem_cons_of_mem x)

@[simp] theorem initialized_set (held : Held Store) :
    (s.set key held).initialized = s.initialized := by
  cases s
  rfl

@[simp] theorem onlyChanged_set (held : Held Store) :
    (s.set key held).onlyChanged = s.onlyChanged := by
  cases s
  rfl

theorem flags_of_update? {s s' : Store} {key : String} {f : Held Store → Option (Held Store)}
    (h : s.update? key f = some s') :
    s'.initialized = s.initialized ∧ s'.onlyChanged = s.onlyChanged := by
  obtain ⟨es, -, rfl⟩ := Option.map_eq_some_iff.mp h
  cases s
  exact ⟨rfl, rfl⟩

theorem find?_remove (k : String) :
    (s.remove key).find? k = if k = key then none else s.find? k := by
  rw [remove, find?, find?, entries_withEntries, List.find?_filter]
  by_cases hk : k = key
  · simp [hk]
  · rw [if_neg hk]
    congr 1
    ext e
    by_cases he : e.key = k
    · simp [he, hk]
    · simp [he]

theorem allKeys_remove : (s.remove key).allKeys = s.allKeys.filter (· != key) := by
  rw [remove, allKeys, allKeys, entries_withEntries, List.filter_map]
  rfl

@[simp] theorem find?_clear (k : String) : s.clear.find? k = none := by
  rw [clear, find?, entries_withEntries, List.find?_nil]

@[simp] theorem allKeys_clear : s.clear.allKeys = [] := by
  rw [clear, allKeys, entries_withEntries, List.map_nil]

theorem find?_restore (f : Held Store → Held Store) (k : String) :
    (s.restore key f).find? k =
      (s.find? k).map fun e => if k = key then { e with held := f e.held } else e := by
  rw [restore, find?, find?, entries_withEntries]
  induction s.entries with
  | nil => rfl
  | cons x es ih =>
      by_cases hx : x.key = key
      · by_cases hk : k = key
        · simp [restoreEntries, hx, hk]
        · simp [restoreEntries, hx, hk, Ne.symm hk]
      · rw [restoreEntries, if_neg hx]
        by_cases hk : x.key = k
        · have hne : k ≠ key := hk ▸ hx
          simp [hk, hne]
        · rw [List.find?_cons_of_neg (by simpa using hk), ih,
            List.find?_cons_of_neg (by simpa using hk)]

theorem allKeys_restore (f : Held Store → Held Store) :
    (s.restore key f).allKeys = s.allKeys := by
  rw [restore, allKeys, allKeys, entries_withEntries]
  induction s.entries with
  | nil => rfl
  | cons x es ih =>
      by_cases hx : x.key = key
      · simp [restoreEntries, hx]
      · rw [restoreEntries, if_neg hx, List.map_cons, ih, List.map_cons]

theorem get?_restore_of_ne (f : Held Store → Held Store) {k : String} (h : k ≠ key) :
    (s.restore key f).get? k = s.get? k := by
  have hvisible : (s.restore key f).visible = s.visible := by
    funext e
    rw [visible, visible, onlyChanged_restore]
  simp only [get?, find?_restore, if_neg h, Option.map_id', hvisible]

/-- What is put in the place of a value is null only if that was. -/
theorem nulledKeys_restore {f : Held Store → Held Store}
    (h : ∀ e, s.find? key = some e → (f e.held).isNull = e.held.isNull) :
    (s.restore key f).nulledKeys = s.nulledKeys := by
  obtain ⟨i, o, es⟩ := s
  simp only [restore, withEntries, nulledKeys, entries_mk]
  induction es with
  | nil => rfl
  | cons e es ih =>
      by_cases hk : e.key = key
      · have he := h e (by simp [find?, hk])
        rw [restoreEntries, if_pos hk, List.filter_cons, List.filter_cons, he]
        split <;> rfl
      · have hes := ih fun e' he' => h e' (by simpa [find?, hk] using he')
        rw [restoreEntries, if_neg hk, List.filter_cons, List.filter_cons]
        split
        · rw [List.map_cons, List.map_cons, hes]
        · exact hes

/-- A change in place, where there is an entry of the key that it knows what to do with. -/
theorem update?_of_some {e : Entry Store} {f : Held Store → Option (Held Store)} {held : Held Store}
    (he : s.find? key = some e) (hf : f e.held = some held) :
    ∃ s', s.update? key f = some s' ∧ s'.allKeys = s.allKeys ∧ ∀ k, s'.find? k =
      if k = key then some ⟨key, s.initialized || e.dirty, held⟩ else s.find? k := by
  simp only [update?, allKeys, find?] at he ⊢
  generalize s.initialized = complete
  have hentries : ∃ es, updateEntries? key complete f s.entries = some es ∧
      es.map (·.key) = s.entries.map (·.key) ∧ ∀ k, es.find? (·.key == k) =
        if k = key then some ⟨key, complete || e.dirty, held⟩
        else s.entries.find? (·.key == k) := by
    generalize s.entries = es at he
    induction es with
    | nil => simp at he
    | cons x es ih =>
        by_cases hx : x.key = key
        · obtain rfl : x = e := by simpa [hx] using he
          refine ⟨_, by rw [updateEntries?, if_pos hx, hf]; rfl, by simp, ?_⟩
          intro k
          by_cases hk : k = key
          · simp [hk, hx]
          · simp [hk, hx, Ne.symm hk]
        · obtain ⟨es', hupdate, hkeys, hfind⟩ := ih (by simpa [hx] using he)
          exact ⟨x :: es', by rw [updateEntries?, if_neg hx, hupdate]; rfl, by simp [hkeys],
            fun k => find?_cons_of_ne key hx (hfind k)⟩
  obtain ⟨es, hupdate, hkeys, hfind⟩ := hentries
  exact ⟨s.withEntries es, by rw [hupdate]; rfl, by simpa using hkeys, by simpa using hfind⟩

theorem update?_of_none {f : Held Store → Option (Held Store)}
    (h : (s.find? key).bind (fun e => f e.held) = none) : s.update? key f = none := by
  rw [update?, Option.map_eq_none_iff]
  rw [find?] at h
  generalize s.entries = es at h
  induction es with
  | nil => rfl
  | cons x es ih =>
      by_cases hx : x.key = key
      · have hf : f x.held = none := by simpa [hx] using h
        rw [updateEntries?, if_pos hx, hf]
        rfl
      · rw [updateEntries?, if_neg hx, ih (by simpa [hx] using h)]
        rfl

/-- A change that was made is a change in place, and one entry is another one for it. -/
theorem exists_of_update? {s s' : Store} (hn : s.allKeys.Nodup) {key : String}
    {f : Held Store → Option (Held Store)} (h : s.update? key f = some s') :
    s'.allKeys = s.allKeys ∧ ∃ e held, s.find? key = some e ∧ f e.held = some held ∧
      ∀ e' ∈ s'.entries, e' = ⟨key, s.initialized || e.dirty, held⟩ ∨ e' ∈ s.entries := by
  cases hbind : (s.find? key).bind fun e => f e.held with
  | none => simp [update?_of_none s key hbind] at h
  | some held =>
      obtain ⟨e, he, hf⟩ := Option.bind_eq_some_iff.mp hbind
      obtain ⟨t, ht, hkeys, hfind⟩ := update?_of_some s key he hf
      obtain rfl : t = s' := Option.some.inj (ht.symm.trans h)
      refine ⟨hkeys, e, held, he, hf, fun e' he' => ?_⟩
      have hfound := hfind e'.key
      rw [(find?_eq_some_iff (hkeys ▸ hn)).mpr ⟨he', rfl⟩] at hfound
      split_ifs at hfound
      · exact .inl (Option.some.inj hfound)
      · exact .inr (find?_eq_some hfound.symm).1

theorem markEntries_eq (initialized : Option Bool) (dirty : Bool) (es : List (Entry Store)) :
    markEntries initialized dirty es =
      es.map fun e => ⟨e.key, dirty, markHeld initialized dirty e.held⟩ := by
  induction es with
  | nil => rfl
  | cons e es ih => rw [markEntries, ih, List.map_cons]

theorem markModels_eq (initialized : Option Bool) (dirty : Bool) (ms : List Store) :
    markModels initialized dirty ms = ms.map (mark initialized dirty) := by
  induction ms with
  | nil => rfl
  | cons m ms ih => rw [markModels, ih, List.map_cons]

theorem entries_mark (initialized : Option Bool) (dirty : Bool) :
    (s.mark initialized dirty).entries =
      s.entries.map fun e => ⟨e.key, dirty, markHeld initialized dirty e.held⟩ := by
  cases s
  exact markEntries_eq ..

theorem find?_mark (initialized : Option Bool) (dirty : Bool) :
    (s.mark initialized dirty).find? key =
      (s.find? key).map fun e => ⟨e.key, dirty, markHeld initialized dirty e.held⟩ := by
  rw [find?, entries_mark, List.find?_map]
  rfl

theorem allKeys_mark (initialized : Option Bool) (dirty : Bool) :
    (s.mark initialized dirty).allKeys = s.allKeys := by
  simp [allKeys, entries_mark, Function.comp_def]

end Change

end Store

end Marshal
