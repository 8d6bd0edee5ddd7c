import Marshal.Json.Reader
import Marshal.Proofs.Members

/-!
What the reader keeps true of the values that it puts together. A value is spoken of with the number
of containers around it.
-/

namespace Marshal

namespace Json

def isContainer : Json → Bool
  | array _ | object _ => true
  | _ => false

/-! ### Tokens -/

namespace Token

def Plain : Token → Prop
  | scalar v => v.isContainer = false
  | _ => True

theorem plain_of_word? {cs : List Char} {t : Token} (h : word? cs = some t) : t.Plain := by
  rw [word?] at h
  split_ifs at h
  · cases h; rfl
  · cases h; rfl
  · cases h; rfl
  · obtain ⟨n, -, rfl⟩ := Option.map_eq_some_iff.mp h
    rfl

theorem plain_of_start? {c : Char} {ts : List Token} {s : Scan} (h : start? c = some (ts, s)) :
    ∀ t ∈ ts, t.Plain := by
  rw [start?] at h
  split_ifs at h <;> cases h <;> simp [Plain]

theorem plain_of_next? {s s' : Scan} {c : Char} {ts : List Token}
    (h : s.next? c = some (ts, s')) : ∀ t ∈ ts, t.Plain := by
  cases s with
  | between => exact plain_of_start? h
  | word got =>
      rw [Scan.next?] at h
      split_ifs at h
      · cases h; simp
      · simp only [Option.bind_eq_bind, Option.bind_eq_some_iff] at h
        obtain ⟨t, ht, ⟨ts', s''⟩, hs, h⟩ := h
        cases h
        exact List.forall_mem_cons.mpr ⟨plain_of_word? ht, plain_of_start? hs⟩
  | string got =>
      rw [Scan.next?] at h
      split_ifs at h <;> cases h <;> simp [Plain, isContainer]
  | escape got =>
      rw [Scan.next?] at h
      split_ifs at h
      · cases h; simp
      · obtain ⟨d, -, h⟩ := Option.map_eq_some_iff.mp h
        cases h; simp
  | unit got high digits value =>
      simp only [Scan.next?, Option.bind_eq_bind, Option.bind_eq_some_iff] at h
      obtain ⟨d, -, h⟩ := h
      split_ifs at h
      · simp only [Option.bind_eq_some_iff] at h
        obtain ⟨s'', -, h⟩ := h
        cases h; simp
      · cases h; simp
  | pair got high | pairEscape got high =>
      rw [Scan.next?] at h
      split_ifs at h
      cases h; simp

theorem plain_of_scan? {s : Scan} {cs : List Char} {ts : List Token} (h : scan? s cs = some ts) :
    ∀ t ∈ ts, t.Plain := by
  induction cs generalizing s ts with
  | nil =>
      cases s with
      | between => cases h; simp
      | word got =>
          obtain ⟨t, ht, rfl⟩ := Option.map_eq_some_iff.mp h
          simpa using plain_of_word? ht
      | _ => cases h
  | cons c cs ih =>
      simp only [scan?, Option.bind_eq_bind, Option.bind_eq_some_iff] at h
      obtain ⟨⟨ts', s'⟩, hnext, rest, hrest, h⟩ := h
      cases h
      exact List.forall_mem_append.mpr ⟨plain_of_next? hnext, ih hrest⟩

end Token

/-! ### The machine -/

/-- Values that are put together as the reader does it have the property: `P k` is for those with
`k` containers around them. -/
structure Builds (limit : Nat) (P : Nat → Json → Prop) : Prop where
  scalar : ∀ k v, k < limit → v.isContainer = false → P k v
  array : ∀ k items, k + 1 < limit → (∀ v ∈ items, P (k + 1) v) → P k (.array items)
  object : ∀ k, k + 1 < limit → P k (.object [])
  /-- A repeated name keeps its place, and the reserved one never comes first. -/
  put : ∀ k members key v, P k (.object members) → P (k + 1) v →
    (members = [] → key ≠ numberName) → P k (.object (Members.put members key v))

namespace Reader

variable {limit : Nat} {P : Nat → Json → Prop}

def OpenKept (limit : Nat) (P : Nat → Json → Prop) (k : Nat) : Open → Prop
  | .array items => k + 1 < limit ∧ ∀ v ∈ items, P (k + 1) v
  | .object members key =>
    k + 1 < limit ∧ P k (.object members) ∧ (members = [] → key ≠ numberName)

def StackKept (limit : Nat) (P : Nat → Json → Prop) : List Open → Prop
  | [] => 0 < limit
  | o :: stack => OpenKept limit P stack.length o ∧ StackKept limit P stack

/-- Nothing that the machine has got hold of is without the property. -/
def Kept (limit : Nat) (P : Nat → Json → Prop) : Reader → Prop
  | value stack | item stack | colon stack => StackKept limit P stack
  | firstName stack | numberColon stack | numberText stack =>
    stack.length + 1 < limit ∧ StackKept limit P stack
  | name members stack =>
    (stack.length + 1 < limit ∧ P stack.length (.object members) ∧ members ≠ []) ∧
      StackKept limit P stack
  | numberEnd v stack => P stack.length v ∧ StackKept limit P stack
  | more (.array items) stack =>
    OpenKept limit P stack.length (.array items) ∧ StackKept limit P stack
  | more (.object members _) stack =>
    (stack.length + 1 < limit ∧ P stack.length (.object members) ∧ members ≠ []) ∧
      StackKept limit P stack
  | finished v => P 0 v

variable {stack : List Open}

theorem StackKept.length_lt (h : StackKept limit P stack) : stack.length < limit := by
  cases stack with
  | nil => exact h
  | cons o stack =>
      obtain ⟨ho, -⟩ := h
      cases o with
      | array items => exact ho.1
      | object members key => exact ho.1

theorem put_ne_nil (members : Members Json) (key : String) (v : Json) :
    members.put key v ≠ [] := by
  cases members with
  | nil => simp [Members.put]
  | cons m members =>
      rw [Members.put]
      split <;> simp

variable (hP : Builds limit P)

include hP

theorem kept_complete {v : Json} (hv : P stack.length v) (hs : StackKept limit P stack) :
    Kept limit P (complete v stack) := by
  cases stack with
  | nil => exact hv
  | cons inner stack =>
      obtain ⟨hinner, hstack⟩ := hs
      cases inner with
      | array items => exact ⟨⟨hinner.1, List.forall_mem_cons.mpr ⟨hv, hinner.2⟩⟩, hstack⟩
      | object members key =>
          obtain ⟨hlimit, hmembers, hkey⟩ := hinner
          exact ⟨⟨hlimit, hP.put _ _ _ _ hmembers hv hkey, put_ne_nil members key v⟩, hstack⟩

theorem kept_of_valueToken? {t : Token} {r : Reader} (ht : t.Plain) (hs : StackKept limit P stack)
    (h : valueToken? limit stack t = some r) : Kept limit P r := by
  cases t with
  | scalar v =>
      cases h
      exact kept_complete hP (hP.scalar _ v hs.length_lt ht) hs
  | beginArray =>
      rw [valueToken?] at h
      split_ifs at h with hlimit
      cases h
      exact ⟨⟨hlimit, List.forall_mem_nil _⟩, hs⟩
  | beginObject =>
      rw [valueToken?] at h
      split_ifs at h with hlimit
      cases h
      exact ⟨hlimit, hs⟩
  | _ => cases h

theorem kept_of_firstNameToken? {t : Token} {r : Reader} (hlimit : stack.length + 1 < limit)
    (hs : StackKept limit P stack) (h : firstNameToken? stack t = some r) : Kept limit P r := by
  revert h
  fun_cases firstNameToken? <;> intro h
  case case1 =>
    cases h
    exact kept_complete hP (hP.object _ hlimit) hs
  case case2 key =>
    -- A reserved name leaves no object open.
    obtain rfl := Option.some.inj h
    split_ifs with hkey
    · exact ⟨hlimit, hs⟩
    · exact ⟨⟨hlimit, hP.object _ hlimit, fun _ => hkey⟩, hs⟩
  case case3 => cases h

theorem kept_next? {r r' : Reader} {t : Token} (hr : Kept limit P r) (ht : t.Plain)
    (h : r.next? limit t = some r') : Kept limit P r' := by
  revert h
  fun_cases next? <;> intro h
  -- A value, or the end of an empty array
  case case1 | case3 => exact kept_of_valueToken? hP ht hr h
  case case2 =>
    cases h
    exact kept_complete hP (hP.array _ [] hr.1.1 (List.forall_mem_nil _)) hr.2
  -- Names
  case case4 =>
    obtain ⟨⟨hlimit, hmembers, hne⟩, hstack⟩ := hr
    revert h
    fun_cases nameToken? <;> intro h
    · cases h
      exact ⟨⟨hlimit, hmembers, fun hnil => absurd hnil hne⟩, hstack⟩
    · cases h
  case case5 => exact kept_of_firstNameToken? hP hr.1 hr.2 h
  -- An object that stands for a number
  case case7 =>
    revert h
    fun_cases numberToken? <;> intro h
    · obtain ⟨n, -, rfl⟩ := Option.map_eq_some_iff.mp h
      exact ⟨hP.scalar _ _ hr.2.length_lt rfl, hr.2⟩
    · cases h
  case case8 =>
    cases h
    exact kept_complete hP hr.1 hr.2
  -- Colons and commas
  case case6 | case9 | case12 =>
    cases h
    exact hr
  case case10 =>
    cases h
    exact hr
  -- The end of a container
  case case11 items _ =>
    cases h
    refine kept_complete hP (hP.array _ _ hr.1.1 fun v hv => ?_) hr.2
    exact hr.1.2 v (List.mem_reverse.mp hv)
  case case13 =>
    cases h
    exact kept_complete hP hr.1.2.1 hr.2
  case case14 => cases h

theorem kept_foldlM {ts : List Token} {r r' : Reader} (hr : Kept limit P r)
    (hts : ∀ t ∈ ts, t.Plain) (h : ts.foldlM (next? limit) r = some r') : Kept limit P r' := by
  induction ts generalizing r with
  | nil =>
      cases h
      exact hr
  | cons t ts ih =>
      obtain ⟨ht, hts⟩ := List.forall_mem_cons.mp hts
      simp only [List.foldlM_cons, Option.bind_eq_bind, Option.bind_eq_some_iff] at h
      obtain ⟨s, hs, h⟩ := h
      exact ih (kept_next? hP hr ht hs) hts h

end Reader

/-- What the reader keeps is true of the values that it reads. -/
theorem kept_of_ofString? {P : Nat → Json → Prop} (hP : Builds nestingLimit P) {s : String}
    {v : Json} (h : ofString? s = some v) : P 0 v := by
  obtain ⟨ts, hts, h⟩ := Option.bind_eq_some_iff.mp h
  obtain ⟨r, hr, hv⟩ := Option.bind_eq_some_iff.mp h
  have hstart : Reader.Kept nestingLimit P (.value []) := by
    show 0 < nestingLimit
    decide
  have hkept := Reader.kept_foldlM hP hstart (Token.plain_of_scan? hts) hr
  cases r with
  | finished w =>
      cases hv
      exact hkept
  | _ => cases hv

end Json

end Marshal
