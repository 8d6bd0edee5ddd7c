import Marshal.Proofs.Json.Undeclared
import Marshal.Proofs.Number.FewDigits

/-!
Undeclared values that are written again: they keep their shape, their strings, their booleans and
their nulls. Integers of 64 bits keep their value, and so do numbers of fifteen digits that a double
is near to. Other numbers are taken to the nearest double, or become null where there is none.
-/

namespace Marshal

namespace Numeral

def value? : Numeral → Option ℚ
  | finite negative digits exponent =>
    some (if negative then -(digits * 10 ^ exponent) else digits * 10 ^ exponent)
  | _ => none

theorem exists_of_value? {n : Numeral} {y : ℚ} (h : n.value? = some y) :
    ∃ (negative : Bool) (digits : ℕ) (exponent : ℤ), n = finite negative digits exponent ∧
      y = (if negative then -((digits : ℚ) * 10 ^ exponent) else digits * 10 ^ exponent) ∧
      |y| = digits * 10 ^ exponent := by
  cases n with
  | finite negative digits exponent =>
      obtain rfl := Option.some.inj h
      have hpos : (0 : ℚ) ≤ digits * 10 ^ exponent := by positivity
      refine ⟨negative, digits, exponent, rfl, rfl, ?_⟩
      split_ifs
      · rw [abs_neg, abs_of_nonneg hpos]
      · rw [abs_of_nonneg hpos]
  | _ => cases h

theorem unsigned?_of_readDigits? {cs : List Char} {k : ℕ} (negative : Bool)
    (h : readDigits? cs = some k) : unsigned? negative cs = some (.finite negative k 0) := by
  obtain ⟨hne, hdigits⟩ := readDigits?_eq_some h
  rw [readDigits?_of_isDigit hne hdigits] at h
  obtain ⟨c, rest, rfl⟩ := List.exists_cons_of_ne_nil hne
  have hall : c :: rest = c :: rest ++ [] := (List.append_nil _).symm
  rw [unsigned?_of_isDigit negative (hdigits c (by simp)), finite?, hall,
    Text.takeWhile_isDigit hdigits Text.noDigit_nil,
    Text.dropWhile_isDigit hdigits Text.noDigit_nil]
  simpa [exponent?] using h

/-- Integers stand for themselves. -/
theorem exists_ofChars?_of_readInt? {cs : List Char} {i : ℤ} (h : readInt? cs = some i) :
    ∃ n, ofChars? cs = some n ∧ n.value? = some (i : ℚ) := by
  have hplain {cs : List Char} (h : (readDigits? cs).map Int.ofNat = some i) :
      ∃ n, unsigned? false cs = some n ∧ n.value? = some (i : ℚ) := by
    obtain ⟨k, hk, rfl⟩ := Option.map_eq_some_iff.mp h
    exact ⟨_, unsigned?_of_readDigits? false hk, by simp [value?]⟩
  rw [readInt?.eq_def] at h
  split at h
  · obtain ⟨_, hdigits, rfl⟩ := Option.map_eq_some_iff.mp h
    obtain ⟨k, hk, hcast⟩ := Option.bind_eq_some_iff.mp hdigits
    obtain rfl := Option.some.inj hcast
    exact ⟨_, unsigned?_of_readDigits? true hk, by simp [value?]⟩
  · rename_i hminus
    rw [readNat?.eq_def] at h
    split at h
    · exact hplain h
    · rename_i hplus
      rw [ofChars?]
      · exact hplain h
      · exact hminus
      · exact hplus

end Numeral

namespace Shape

variable {s : Shape}

theorem signed_inj {negative negative' : Bool} {a b : ℕ} (ha : a < s.signBit) (hb : b < s.signBit)
    (h : s.signed negative a = s.signed negative' b) : negative = negative' ∧ a = b := by
  cases negative <;> cases negative' <;> simp [signed] at h ⊢ <;> omega

end Shape

namespace Double

variable {cs : List Char} {negative : Bool} {digits : ℕ} {exponent : ℤ} {x : Double}

/-- A finite double has the sign of the number that it was read from, and its magnitude up to
rounding. -/
theorem exists_reading (hnumeral : Numeral.ofChars? cs = some (.finite negative digits exponent))
    (hread : Double.ofChars? cs = some x) (hx : x.isFinite = true) {magnitude : ℕ}
    (hpattern : (Numeral.finite negative digits exponent).pattern .binary64 =
      Shape.binary64.signed negative (min magnitude Shape.binary64.infinity)) :
    ∃ m q, x.reading = .finite negative m q ∧ Shape.binary64.Canonical m q ∧
      Shape.binary64.magnitude m q = magnitude := by
  obtain ⟨negative', m, q, hreading⟩ := exists_of_isFinite hx
  have hbits : x.bits.toNat < 2 * Shape.binary64.signBit := x.bits.toNat_lt
  obtain ⟨hc, hfinite, hsigned⟩ := Shape.decode_eq_finite hbits hreading
  have hinfinity : Shape.binary64.infinity < Shape.binary64.signBit := by decide
  have hmin := Nat.min_le_right magnitude Shape.binary64.infinity
  rw [Double.ofChars?, hnumeral, Option.map_some, hpattern] at hread
  obtain rfl := Option.some.inj hread
  have hlt : Shape.binary64.signed negative (min magnitude Shape.binary64.infinity) < 2 ^ 64 := by
    have htwice : 2 * Shape.binary64.signBit = 2 ^ 64 := rfl
    rw [Shape.signed]
    split_ifs <;> omega
  have hself := hsigned.symm.trans (UInt64.toNat_ofNat_of_lt' hlt)
  obtain ⟨rfl, hsame⟩ := Shape.signed_inj (by omega) (by omega) hself.symm
  exact ⟨m, q, hreading, hc, by omega⟩

end Double

namespace Json

/-! ### Numbers -/

def valueOf? (t : String) : Option ℚ :=
  (Numeral.ofChars? t.toList).bind Numeral.value?

/-- Zero, and what has fifteen digits at most and is no smaller than the doubles with a full
fraction. -/
def Brief (y : ℚ) : Prop :=
  y = 0 ∨ (2 : ℚ) ^ (-1022 : ℤ) ≤ |y| ∧ ∃ (d : ℕ) (k : ℤ), d < 10 ^ 15 ∧ |y| = d * 10 ^ k

/-- What an undeclared number is written as again. -/
inductive NumberResent (t : String) : Json → Prop
  | equal {u : String} {y : ℚ} (before : valueOf? t = some y) (after : valueOf? u = some y) :
      NumberResent t (.number u)
  /-- The nearest double, for a number that is no integer of 64 bits and has too many digits. -/
  | nearest {x : Double} (integer : integer? t = none) (long : ∀ y ∈ valueOf? t, ¬ Brief y)
      (before : double? t = some x) (after : double? (x.text .exponential) = some x) :
      NumberResent t (.number (x.text .exponential))
  /-- No integer of 64 bits, and larger than all doubles. -/
  | beyond (integer : integer? t = none) (double : double? t = none) : NumberResent t .null

variable {t : String}

theorem valueOf?_of_integer? {n : Int64} (h : integer? t = some n) :
    valueOf? t = some (n.toInt : ℚ) := by
  obtain ⟨i, hi, hn⟩ := Option.bind_eq_some_iff.mp h
  obtain ⟨numeral, hread, hvalue⟩ := Numeral.exists_ofChars?_of_readInt? hi
  have htoInt : n.toInt = i := by
    rw [toInt64?] at hn
    split_ifs at hn with hrange
    obtain rfl := Option.some.inj hn
    exact Int64.toInt_ofInt_of_le hrange.1 hrange.2
  rw [valueOf?, hread, Option.bind_some, hvalue, htoInt]

theorem valueOf?_of_lays {negative : Bool} {cs : List Char} {y : ℚ}
    (ht : t.toList = (if negative then ['-'] else []) ++ cs) (h : Lays cs y) :
    valueOf? t = some (if negative then -y else y) := by
  obtain ⟨digits, exponent, hread, rfl⟩ := Numeral.ofChars?_of_lays negative h
  rw [valueOf?, ht, hread]
  rfl

theorem valueOf?_text_of_zero {negative : Bool} {exponent : ℤ} {x : Double}
    (hnumeral : Numeral.ofChars? t.toList = some (.finite negative 0 exponent))
    (hread : Double.ofChars? t.toList = some x) (hfinite : x.isFinite = true) :
    valueOf? (x.text .exponential) = some 0 := by
  have hpattern : (Numeral.finite negative 0 exponent).pattern .binary64 =
      Shape.binary64.signed negative (min 0 Shape.binary64.infinity) := by
    rw [Numeral.pattern_zero, Nat.zero_min]
  obtain ⟨m, q, hreading, hc, hmagnitude⟩ :=
    Double.exists_reading hnumeral hread hfinite hpattern
  have hm : m = 0 := (Nat.add_eq_zero_iff.mp hmagnitude).2
  obtain ⟨cs, hchars, hlays⟩ := Double.lays_text hreading
  rw [if_pos hm] at hlays
  rw [valueOf?_of_lays hchars hlays]
  simp

theorem valueOf?_text_of_few {negative : Bool} {digits d : ℕ} {exponent k : ℤ} {x : Double}
    (hnumeral : Numeral.ofChars? t.toList = some (.finite negative digits exponent))
    (hread : Double.ofChars? t.toList = some x) (hfinite : x.isFinite = true)
    (hlarge : (2 : ℚ) ^ (-1022 : ℤ) ≤ digits * 10 ^ exponent) (hd : d < 10 ^ 15)
    (hfew : (digits : ℚ) * 10 ^ exponent = d * 10 ^ k) :
    valueOf? (x.text .exponential) =
      some (if negative then -((digits : ℚ) * 10 ^ exponent) else digits * 10 ^ exponent) := by
  obtain ⟨m, q, hc, hm, hrounds⟩ := Shape.exists_rounds (s := .binary64) (by decide) hlarge
  have hpos : 0 < m := Nat.lt_of_lt_of_le (by decide) hm
  obtain ⟨m', q', hreading, hc', hmagnitude⟩ := Double.exists_reading hnumeral hread hfinite
    (Numeral.pattern_of_rounds negative hc hpos hrounds)
  obtain ⟨rfl, rfl⟩ := hc'.eq_of_magnitude hc hmagnitude
  obtain ⟨cs, hchars, hlays⟩ := Double.lays_text hreading
  rw [hfew] at hrounds
  rw [if_neg hpos.ne', Scaled.value_shortest_of_few hm hd hrounds] at hlays
  rw [valueOf?_of_lays hchars hlays, hfew]

/-- A number with few digits is what the text of the nearest double stands for. -/
theorem valueOf?_text {y : ℚ} {x : Double} (ht : valueOf? t = some y) (hy : Brief y)
    (hx : double? t = some x) : valueOf? (x.text .exponential) = some y := by
  obtain ⟨hread, hfinite⟩ := Option.filter_eq_some_iff.mp hx
  obtain ⟨numeral, hnumeral, hvalue⟩ := Option.bind_eq_some_iff.mp ht
  obtain ⟨negative, digits, exponent, rfl, rfl, habs⟩ := Numeral.exists_of_value? hvalue
  rcases hy with hzero | ⟨hlarge, d, k, hd, hfew⟩
  · rw [hzero, abs_zero] at habs
    have hten : (10 : ℚ) ^ exponent ≠ 0 := by positivity
    obtain rfl : digits = 0 := by exact_mod_cast (mul_eq_zero.mp habs.symm).resolve_right hten
    rw [hzero]
    exact valueOf?_text_of_zero hnumeral hread hfinite
  · rw [habs] at hlarge hfew
    exact valueOf?_text_of_few hnumeral hread hfinite hlarge hd hfew

/-- Whatever number is read, it is written as one of these. -/
theorem numberResent (t : String) : NumberResent t (numberToUntyped t).json := by
  rw [numberToUntyped]
  cases hinteger : integer? t with
  | some n =>
      exact .equal (valueOf?_of_integer? hinteger) (valueOf?_of_integer? (integer?_intText n))
  | none =>
      cases hdouble : double? t with
      | none => exact .beyond hinteger hdouble
      | some x =>
          have hfinite := (Option.filter_eq_some_iff.mp hdouble).2
          simp only [Untyped.json, ofDouble, if_pos hfinite]
          by_cases hbrief : ∃ y, valueOf? t = some y ∧ Brief y
          · obtain ⟨y, hy, hbrief⟩ := hbrief
            exact .equal hy (valueOf?_text hy hbrief hdouble)
          · exact .nearest hinteger (fun y hy hfew => hbrief ⟨y, hy, hfew⟩) hdouble
              (double?_text hfinite)

/-! ### Values -/

mutual

/-- The second value is what the first is written as again: the same, but for numbers. -/
def Resent : Json → Json → Prop
  | null, w => w = null
  | bool b, w => w = bool b
  | number t, w => NumberResent t w
  | string s, w => w = string s
  | array vs, w => ∃ ws, w = array ws ∧ ResentItems vs ws
  | object ms, w => ∃ ns, w = object ns ∧ ResentMembers ms ns

def ResentItems : List Json → List Json → Prop
  | [], [] => True
  | v :: vs, w :: ws => Resent v w ∧ ResentItems vs ws
  | _, _ => False

def ResentMembers : List (String × Json) → List (String × Json) → Prop
  | [], [] => True
  | (k, v) :: ms, (l, w) :: ns => k = l ∧ Resent v w ∧ ResentMembers ms ns
  | _, _ => False

end

theorem resentMembers_iff {ms ns : List (String × Json)} :
    ResentMembers ms ns ↔ List.Forall₂ (fun m n => m.1 = n.1 ∧ Resent m.2 n.2) ms ns := by
  induction ms generalizing ns with
  | nil => cases ns <;> simp [ResentMembers]
  | cons m ms ih => cases ns <;> simp [ResentMembers, ih, and_assoc]

mutual

/-- Whatever is kept of an undeclared value is written as the value again. -/
theorem resent_toUntyped : ∀ v : Json, v.Resent v.toUntyped.json
  | null => by rw [Resent]; rfl
  | bool b => by rw [Resent]; rfl
  | number t => by
      rw [Resent]
      exact numberResent t
  | string s => by rw [Resent]; rfl
  | array items => by
      rw [Resent, toUntyped, Untyped.json]
      exact ⟨_, rfl, resent_itemsToUntyped items⟩
  | object members => by
      rw [Resent, toUntyped, Untyped.json]
      exact ⟨_, rfl, resent_membersToUntyped members⟩

theorem resent_itemsToUntyped : ∀ vs : List Json,
    ResentItems vs (Untyped.jsonItems (itemsToUntyped vs))
  | [] => trivial
  | v :: vs => ⟨resent_toUntyped v, resent_itemsToUntyped vs⟩

theorem resent_membersToUntyped : ∀ ms : List (String × Json),
    ResentMembers ms (Untyped.jsonMembers (membersToUntyped ms))
  | [] => trivial
  | (_, v) :: ms => ⟨rfl, resent_toUntyped v, resent_membersToUntyped ms⟩

end

end Json

end Marshal
