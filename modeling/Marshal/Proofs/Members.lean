import Mathlib.Data.List.Basic
import Marshal.Members

/-!
Putting many members at once, and finding them again.
-/

namespace Marshal

namespace Members

variable {α β : Type}

@[simp] theorem putAll_nil (m : Members α) : putAll m [] = m := rfl

@[simp] theorem putAll_cons (m : Members α) (p : String × α) (ps : List (String × α)) :
    putAll m (p :: ps) = putAll (m.put p.1 p.2) ps := rfl

theorem putAll_append (m : Members α) (ps qs : List (String × α)) :
    putAll m (ps ++ qs) = putAll (putAll m ps) qs := by
  simp [putAll]

theorem put_of_not_mem {m : Members α} {key : String} (h : key ∉ m.keys) (v : α) :
    m.put key v = m ++ [(key, v)] := by
  induction m with
  | nil => rfl
  | cons p m ih =>
      simp only [keys_cons, List.mem_cons, not_or] at h
      simp [put, Ne.symm h.1, ih h.2]

theorem not_mem_of_nodup {m : Members α} {key : String} {names : List String}
    (h : (m.keys ++ key :: names).Nodup) : key ∉ m.keys := fun hm =>
  (List.nodup_append.mp h).2.2 _ hm key (by simp) rfl

theorem nodup_concat {m : Members α} {key : String} {names : List String}
    (h : (m.keys ++ key :: names).Nodup) (v : α) :
    (keys (m ++ [(key, v)]) ++ names).Nodup := by
  simpa [keys] using h

theorem get?_concat {m : Members α} {key : String} (h : key ∉ m.keys) (v : α) :
    get? (m ++ [(key, v)]) key = some v := by
  rw [← put_of_not_mem h v]
  exact get?_put_self m key v

theorem get?_concat_of_ne {m : Members α} {key other : String} (h : other ≠ key) (v : α) :
    get? (m ++ [(key, v)]) other = m.get? other := by
  have hlast : List.lookup other [(key, v)] = none := by
    rw [List.lookup_cons, beq_false_of_ne h]
    rfl
  rw [get?, List.lookup_append, hlast, Option.or_none]
  rfl

/-- A value that is put under a name that is there takes the place of the old one. -/
theorem put_append_cons {m : Members α} {key : String} (h : key ∉ m.keys) (n : Members α)
    (v w : α) : put (m ++ (key, v) :: n) key w = m ++ (key, w) :: n := by
  induction m with
  | nil => simp [put]
  | cons p m ih =>
      simp only [keys_cons, List.mem_cons, not_or] at h
      simp [put, Ne.symm h.1, ih h.2]

theorem put_concat {m : Members α} {key : String} (h : key ∉ m.keys) (v w : α) :
    put (m ++ [(key, v)]) key w = m ++ [(key, w)] :=
  put_append_cons h [] v w

/-- Pairs with names of their own are appended as they are. -/
theorem putAll_of_nodup {m : Members α} {ps : List (String × α)}
    (h : (m.keys ++ keys ps).Nodup) : putAll m ps = m ++ ps := by
  induction ps generalizing m with
  | nil => simp
  | cons p ps ih =>
      -- The first pair is appended, and the names are as distinct as before.
      rw [putAll_cons, put_of_not_mem (not_mem_of_nodup h), ih (nodup_concat h p.2)]
      simp

theorem ofPairs_of_nodup {ps : List (String × α)} (h : (keys ps).Nodup) : ofPairs ps = ps := by
  simpa [ofPairs] using putAll_of_nodup (m := []) (by simpa using h)

theorem get?_of_mem {m : Members α} (h : m.keys.Nodup) {p : String × α} (hp : p ∈ m) :
    m.get? p.1 = some p.2 := by
  induction m with
  | nil => simp at hp
  | cons q m ih =>
      obtain ⟨hq, hm⟩ := List.nodup_cons.mp h
      rw [get?, List.lookup_cons]
      rcases List.mem_cons.mp hp with rfl | hp
      · simp
      · have hne : (p.1 == q.1) = false := by
          simpa using fun e : p.1 = q.1 => hq (e ▸ List.mem_map_of_mem hp)
        rw [hne]
        exact ih hm hp

theorem get?_eq_none_iff {m : Members α} {key : String} : m.get? key = none ↔ key ∉ m.keys := by
  rw [get?, List.lookup_eq_none_iff]
  constructor
  · intro h hkey
    obtain ⟨p, hp, rfl⟩ := List.mem_map.mp hkey
    simpa using h p hp
  · intro h p hp
    have hne : key ≠ p.1 := fun e => h (e ▸ List.mem_map_of_mem hp)
    simpa using hne

theorem mem_of_get? {m : Members α} {key : String} {v : α} (h : m.get? key = some v) :
    (key, v) ∈ m := by
  obtain ⟨before, after, rfl, -⟩ := List.lookup_eq_some_iff.mp h
  simp

theorem get?_eq_some_iff {m : Members α} (h : m.keys.Nodup) {key : String} {v : α} :
    m.get? key = some v ↔ (key, v) ∈ m :=
  ⟨mem_of_get?, fun hm => get?_of_mem h hm⟩

theorem get?_perm {m n : Members α} (h : m.keys.Nodup) (hperm : m.Perm n) (key : String) :
    m.get? key = n.get? key := by
  have hn : n.keys.Nodup := (hperm.map Prod.fst).nodup_iff.mp h
  ext v
  rw [get?_eq_some_iff h, get?_eq_some_iff hn, hperm.mem_iff]

/-- Of two values under one name, the one that is put later is found. -/
theorem get?_putAll {m ps : Members α} (h : ps.keys.Nodup) (key : String) :
    (putAll m ps).get? key = (ps.get? key).or (m.get? key) := by
  induction ps generalizing m with
  | nil => rfl
  | cons p ps ih =>
      obtain ⟨k, v⟩ := p
      obtain ⟨hk, hps⟩ := List.nodup_cons.mp h
      rw [putAll_cons, ih hps]
      by_cases hkey : key = k
      · have hrest : get? ps key = none := get?_eq_none_iff.mpr (hkey ▸ hk)
        rw [hrest, hkey, get?_put_self]
        simp [get?]
      · have hne : (key == k) = false := by simpa using hkey
        rw [get?_put_of_ne hkey]
        simp only [get?, List.lookup_cons, hne]

theorem nodup_keys_putAll {m : Members α} (h : m.keys.Nodup) (ps : List (String × α)) :
    (putAll m ps).keys.Nodup := by
  induction ps generalizing m with
  | nil => exact h
  | cons p ps ih => exact ih (nodup_keys_put h p.1 p.2)

/-- Members are the same if they have the same names in the same order and the same value under
each. -/
theorem eq_of_get?_eq {m n : Members α} (hm : m.keys.Nodup) (hkeys : m.keys = n.keys)
    (hget : ∀ key, m.get? key = n.get? key) : m = n := by
  induction m generalizing n with
  | nil => exact (List.map_eq_nil_iff.mp hkeys.symm).symm
  | cons p m ih =>
      obtain ⟨k, v⟩ := p
      obtain ⟨hk, hm⟩ := List.nodup_cons.mp hm
      obtain ⟨⟨l, w⟩, n, rfl⟩ := List.exists_cons_of_ne_nil (l := n) fun hn => by simp [hn] at hkeys
      obtain ⟨rfl, hnames⟩ : k = l ∧ keys m = keys n := List.cons.inj hkeys
      have hv : v = w := by simpa [get?] using hget k
      have hrest (key : String) : get? m key = get? n key := by
        by_cases hkey : key = k
        · -- No other member has the name of the first one.
          rw [hkey, get?_eq_none_iff.mpr hk, get?_eq_none_iff.mpr (hnames ▸ hk)]
        · have hne : (key == k) = false := by simpa using hkey
          simpa only [get?, List.lookup_cons, hne] using hget key
      rw [hv, ih hm hnames hrest]

theorem keys_eq_of_forall₂ {m : Members α} {n : Members β} {R : String × α → String × β → Prop}
    (h : List.Forall₂ R m n) (hR : ∀ p q, R p q → p.1 = q.1) : m.keys = n.keys := by
  induction h with
  | nil => rfl
  | cons hpq _ ih => rw [keys_cons, keys_cons, hR _ _ hpq, ih]

theorem mem_put {m : Members α} {key : String} {v : α} {p : String × α} (h : p ∈ m.put key v) :
    p = (key, v) ∨ p ∈ m := by
  induction m with
  | nil => exact .inl (List.mem_singleton.mp h)
  | cons q m ih =>
      rw [put] at h
      split at h
      · exact (List.mem_cons.mp h).imp_right (List.mem_cons_of_mem q)
      · rcases List.mem_cons.mp h with rfl | h
        · exact .inr List.mem_cons_self
        · exact (ih h).imp_right (List.mem_cons_of_mem q)

theorem get?_mapValues (f : α → β) (m : Members α) (key : String) :
    (m.mapValues f).get? key = (m.get? key).map f := by
  induction m with
  | nil => rfl
  | cons p m ih =>
      obtain ⟨k, v⟩ := p
      simp only [mapValues, get?, List.map_cons, List.lookup_cons] at ih ⊢
      cases key == k with
      | true => rfl
      | false => exact ih

theorem keys_erase (m : Members α) (key : String) :
    (m.erase key).keys = m.keys.filter (· != key) := by
  rw [erase, keys, keys, List.filter_map]
  rfl

theorem erase_of_not_mem {m : Members α} {key : String} (h : key ∉ m.keys) : m.erase key = m :=
  List.filter_eq_self.mpr fun _ hp =>
    bne_iff_ne.mpr (ne_of_mem_of_not_mem (List.mem_map_of_mem hp) h)

theorem erase_append_cons {m n : Members α} {key : String} (hm : key ∉ m.keys)
    (hn : key ∉ n.keys) (v : α) : erase (m ++ (key, v) :: n) key = m ++ n := by
  have hcons : erase ((key, v) :: n) key = n := by
    rw [erase, List.filter_cons_of_neg (by simp)]
    exact erase_of_not_mem hn
  rw [erase, List.filter_append]
  exact congrArg₂ (· ++ ·) (erase_of_not_mem hm) hcons

theorem get?_erase (m : Members α) (key other : String) :
    (m.erase key).get? other = if other = key then none else m.get? other := by
  induction m with
  | nil => simp [erase, get?]
  | cons p m ih =>
      obtain ⟨k, v⟩ := p
      simp only [erase, get?, List.lookup_cons] at ih ⊢
      by_cases hk : k = key
      · subst hk
        rw [List.filter_cons_of_neg (by simp), ih]
        by_cases ho : other = k
        · simp [ho]
        · have hne : (other == k) = false := by simpa using ho
          simp [ho, hne]
      · rw [List.filter_cons_of_pos (by simpa using hk), List.lookup_cons, ih]
        cases he : other == k with
        | true =>
            have hne : other ≠ key := by
              rw [eq_of_beq he]
              exact hk
            simp [hne]
        | false => rfl

theorem has_iff_get? {m : Members α} {key : String} :
    m.has key = true ↔ ∃ v, m.get? key = some v := by
  rw [has_iff_mem_keys]
  constructor
  · intro h
    obtain ⟨v, hv⟩ := Option.ne_none_iff_exists'.mp (mt get?_eq_none_iff.mp (not_not_intro h))
    exact ⟨v, hv⟩
  · rintro ⟨v, hv⟩
    exact List.mem_map_of_mem (mem_of_get? hv)

end Members

end Marshal
