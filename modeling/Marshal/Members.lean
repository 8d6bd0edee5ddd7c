/-!
Named values in the order in which their names first came. Putting a value under a name that is
already there keeps the name's place.
-/

namespace Marshal

abbrev Members (α : Type) := List (String × α)

namespace Members

variable {α β : Type}

def keys (m : Members α) : List String :=
  m.map Prod.fst

def get? (m : Members α) (key : String) : Option α :=
  m.lookup key

def has (m : Members α) (key : String) : Bool :=
  m.any fun p => p.1 == key

def put (m : Members α) (key : String) (value : α) : Members α :=
  match m with
  | [] => [(key, value)]
  | p :: rest => if p.1 = key then (key, value) :: rest else p :: put rest key value

def erase (m : Members α) (key : String) : Members α :=
  m.filter fun p => p.1 != key

/-- Puts the pairs one after the other. -/
def putAll (m : Members α) (pairs : List (String × α)) : Members α :=
  pairs.foldl (fun m p => m.put p.1 p.2) m

/-- The same names with other values. -/
def mapValues (f : α → β) (m : Members α) : Members β :=
  m.map fun p => (p.1, f p.2)

def ofPairs (pairs : List (String × α)) : Members α :=
  putAll [] pairs

@[simp] theorem keys_mapValues (f : α → β) (m : Members α) : (m.mapValues f).keys = m.keys := by
  simp [mapValues, keys, Function.comp_def]

@[simp] theorem keys_nil : keys ([] : Members α) = [] := rfl

@[simp] theorem keys_cons (p : String × α) (m : Members α) : keys (p :: m) = p.1 :: keys m := rfl

theorem has_iff_mem_keys {m : Members α} {key : String} : m.has key = true ↔ key ∈ m.keys := by
  simp [has, keys]

theorem keys_put (m : Members α) (key : String) (value : α) :
    (m.put key value).keys = if key ∈ m.keys then m.keys else m.keys ++ [key] := by
  induction m with
  | nil => simp [put]
  | cons p m ih =>
    rw [put]
    split
    · simp_all
    · rename_i h
      have hk : key ≠ p.1 := fun e => h e.symm
      simp only [keys_cons, ih, List.mem_cons, hk, false_or]
      split <;> simp

theorem nodup_keys_put {m : Members α} (h : m.keys.Nodup) (key : String) (value : α) :
    (m.put key value).keys.Nodup := by
  rw [keys_put]
  split
  · exact h
  · rename_i hk
    refine List.nodup_append.2 ⟨h, by simp, ?_⟩
    intro a ha b hb
    rw [List.mem_singleton.1 hb]
    exact fun e => hk (e ▸ ha)

@[simp] theorem get?_put_self (m : Members α) (key : String) (value : α) :
    (m.put key value).get? key = some value := by
  induction m with
  | nil => simp [put, get?]
  | cons p m ih =>
    obtain ⟨k, v⟩ := p
    rw [put]
    split
    · simp [get?]
    · rename_i h
      have hk : (key == k) = false := by simpa using fun e => h e.symm
      rw [get?] at ih ⊢
      rw [List.lookup_cons, hk, ih]

theorem get?_put_of_ne {m : Members α} {key other : String} (h : other ≠ key) (value : α) :
    (m.put key value).get? other = m.get? other := by
  induction m with
  | nil => simp [put, get?, h]
  | cons p m ih =>
    obtain ⟨k, v⟩ := p
    have ho : (other == key) = false := by simpa using h
    rw [put]
    split
    · rename_i he
      have he : k = key := he
      subst he
      simp [get?, List.lookup_cons, ho]
    · simp only [get?, List.lookup_cons] at ih ⊢
      rw [ih]

end Members

end Marshal
