import Mathlib.Tactic.NormNum.Pow
import Marshal.Draft.Json
import Marshal.Json.Node
import Marshal.Proofs.Number.Layout

/-!
Doubles in a JSON document: each is written with the fewest digits that are read as the same double.
-/

namespace Marshal

/-! ### Powers of ten that are too far -/

theorem lt_pow_length_natChars (n : ℕ) : n < 10 ^ (natChars n).length :=
  (Nat.length_toDigits_le_iff (by decide)
    (List.length_pos_iff.mpr (natChars_ne_nil n))).mp le_rfl

theorem pow_length_natChars_le {n : ℕ} (hn : 0 < n) : 10 ^ (natChars n).length ≤ 10 * n := by
  obtain ⟨k, hk⟩ : ∃ k, (natChars n).length = k + 1 :=
    Nat.exists_eq_succ_of_ne_zero (by simp [natChars_ne_nil])
  rw [hk, pow_succ, mul_comm]
  refine Nat.mul_le_mul_left 10 (not_lt.mp fun hlt => ?_)
  rcases Nat.eq_zero_or_pos k with rfl | hpos
  · rw [pow_zero] at hlt
    omega
  · have hlength := length_natChars_le hpos hlt
    omega

theorem two_pow_lt_ten_pow {n k : ℕ} (hn : n ≤ 3 * k) (hk : k ≠ 0) : (2 : ℚ) ^ n < 10 ^ k := by
  calc (2 : ℚ) ^ n ≤ 2 ^ (3 * k) := pow_le_pow_right₀ one_le_two hn
    _ = 8 ^ k := by
        rw [pow_mul]
        norm_num
    _ < 10 ^ k := pow_lt_pow_left₀ (by norm_num) (by norm_num) hk

namespace Shape

variable {m : ℕ} {q : ℤ} {x : ℚ}

theorem power_le_of_lt (h : binary64.magnitude m q < binary64.infinity) : q ≤ 972 := by
  have hpower : (q + 1074).toNat * 2 ^ 52 < 2047 * 2 ^ 52 :=
    Nat.lt_of_le_of_lt (Nat.le_add_right _ m) h
  have hlt := Nat.lt_of_mul_lt_mul_right hpower
  omega

/-- No finite double is as large as `10^400`. -/
theorem Rounds.lt_far (hc : binary64.Canonical m q)
    (hfinite : binary64.magnitude m q < binary64.infinity) (h : binary64.Rounds m q x) :
    x < 10 ^ (400 : ℤ) := by
  have hq := power_le_of_lt hfinite
  calc x < 2 ^ ((binary64.fraction : ℤ) + 1 + q) := h.lt hc
    _ ≤ 2 ^ (1025 : ℤ) := zpow_le_zpow_right₀ one_le_two (by
        show (52 : ℤ) + 1 + q ≤ 1025
        omega)
    _ < 10 ^ (400 : ℤ) := by
        rw [zpow_ofNat, zpow_ofNat]
        exact two_pow_lt_ten_pow (by omega) (by omega)

/-- None but zero is as small as `10^-401`. -/
theorem Rounds.far_lt (hc : binary64.Canonical m q) (hm : 0 < m) (h : binary64.Rounds m q x) :
    10 ^ (-401 : ℤ) < x := by
  have hreach := binary64.reach_le m q
  have hm' : (1 : ℚ) ≤ m := by exact_mod_cast hm
  calc (10 : ℚ) ^ (-401 : ℤ) < 2 ^ (-1075 : ℤ) := by
        rw [zpow_neg, zpow_neg, zpow_ofNat, zpow_ofNat]
        exact inv_strictAnti₀ (by positivity) (two_pow_lt_ten_pow (by omega) (by omega))
    _ = 1 / 2 * 2 ^ (-1074 : ℤ) := by
        have hpred : (-1075 : ℤ) = -1074 - 1 := rfl
        rw [hpred, zpow_sub_one₀ two_ne_zero]
        ring
    _ ≤ 1 / 2 * 2 ^ q := by
        have hpower : (2 : ℚ) ^ (-1074 : ℤ) ≤ 2 ^ q := zpow_le_zpow_right₀ one_le_two hc.power
        gcongr
    _ ≤ (m - binary64.reach m q) * 2 ^ q := by
        have hpos : (0 : ℚ) < 2 ^ q := by positivity
        gcongr
        linarith
    _ ≤ x := h.le.1

end Shape

namespace Numeral

variable {m digits : ℕ} {q exponent : ℤ}

theorem pattern_zero (s : Shape) (negative : Bool) (exponent : ℤ) :
    (Numeral.finite negative 0 exponent).pattern s = s.signed negative 0 := by
  simp [pattern]

/-- A number is read as the double that it is rounded to, if that is finite. -/
theorem pattern_of_rounds (negative : Bool) (hc : Shape.binary64.Canonical m q) (hm : 0 < m)
    (h : Shape.binary64.Rounds m q (digits * 10 ^ exponent)) :
    (Numeral.finite negative digits exponent).pattern .binary64 =
      Shape.binary64.signed negative
        (min (Shape.binary64.magnitude m q) Shape.binary64.infinity) := by
  have hpos : 0 < digits := by
    rcases Nat.eq_zero_or_pos digits with rfl | hpos
    · simpa using h.pos hm
    · exact hpos
  have hlow : -(farPower : ℤ) ≤ exponent + (natChars digits).length := by
    have hupper : (digits : ℚ) * 10 ^ exponent < 10 ^ (exponent + (natChars digits).length) := by
      rw [add_comm, zpow_add₀ (by norm_num), zpow_natCast]
      have hlength : (digits : ℚ) < 10 ^ (natChars digits).length := by
        exact_mod_cast lt_pow_length_natChars digits
      gcongr
    have hlt := (zpow_lt_zpow_iff_right₀ (by norm_num)).mp ((h.far_lt hc hm).trans hupper)
    show (-400 : ℤ) ≤ _
    omega
  have hhigh (hfinite : Shape.binary64.magnitude m q < Shape.binary64.infinity) :
      exponent + (natChars digits).length ≤ farPower := by
    have hlower : (10 : ℚ) ^ (exponent + (natChars digits).length - 1) ≤
        digits * 10 ^ exponent := by
      rw [zpow_sub_one₀ (by norm_num), add_comm, zpow_add₀ (by norm_num), zpow_natCast]
      have hlength : (10 : ℚ) ^ (natChars digits).length ≤ 10 * digits := by
        exact_mod_cast pow_length_natChars_le hpos
      have hscaled : (10 : ℚ) ^ (natChars digits).length * 10 ^ exponent ≤
          10 * digits * 10 ^ exponent := by gcongr
      linarith
    have hlt := (zpow_lt_zpow_iff_right₀ (by norm_num)).mp
      (hlower.trans_lt (h.lt_far hc hfinite))
    show _ ≤ (400 : ℤ)
    omega
  have hratio : ((digits * 10 ^ exponent.toNat : ℕ) / (10 ^ (-exponent).toNat : ℕ) : ℚ) =
      digits * 10 ^ exponent := by
    rw [zpow_eq_div]
    push_cast
    ring
  rw [← hratio] at h
  simp only [pattern, Nat.pow_eq]
  rw [if_neg (by omega)]
  split_ifs with hfar
  · -- What is too far is infinite, and so is what it would be rounded to.
    rw [min_eq_right (not_lt.mp fun hfinite => absurd (hhigh hfinite) (by omega))]
  · rw [Shape.nearest_of_rounds (by positivity) hc hm h]

end Numeral

namespace Double

variable {x : Double}

theorem exists_of_isFinite (h : x.isFinite = true) :
    ∃ negative m q, x.reading = .finite negative m q := by
  rw [isFinite] at h
  split at h
  · exact ⟨_, _, _, ‹_›⟩
  · cases h

/-- The text of a finite double has the shortest digits for it. -/
theorem lays_text {negative : Bool} {m : ℕ} {q : ℤ} (hx : x.reading = .finite negative m q) :
    ∃ cs, (x.text .exponential).toList = (if negative then ['-'] else []) ++ cs ∧
      Lays cs (if m = 0 then 0
        else (Scaled.shortest FloatLayout.exponential.tie .binary64 m q).value) := by
  obtain ⟨cs, hchars, hlays⟩ := FloatLayout.lays_finite .binary64 negative m q
  exact ⟨cs, by rw [text, String.toList_ofList, hx, hchars], hlays⟩

/-- A finite double comes back from its text. -/
theorem ofChars?_text (h : x.isFinite = true) :
    Double.ofChars? (x.text .exponential).toList = some x := by
  obtain ⟨negative, m, q, hx⟩ := exists_of_isFinite h
  obtain ⟨cs, hchars, hlays⟩ := lays_text hx
  obtain ⟨digits, exponent, hread, hvalue⟩ := Numeral.ofChars?_of_lays negative hlays
  have hbits : x.bits.toNat < 2 * Shape.binary64.signBit := x.bits.toNat_lt
  obtain ⟨hc, hfinite, hpattern⟩ := Shape.decode_eq_finite hbits hx
  have hsame : (Numeral.finite negative digits exponent).pattern .binary64 = x.bits.toNat := by
    rw [hpattern]
    split_ifs at hvalue with hm
    · have hdigits : digits = 0 := by
        have hpos : (0 : ℚ) < 10 ^ exponent := by positivity
        exact_mod_cast (mul_eq_zero.mp hvalue).resolve_right hpos.ne'
      rw [hdigits, Numeral.pattern_zero, hc.magnitude_eq_zero hm]
    · have hpos := Nat.pos_of_ne_zero hm
      have hrounds := Scaled.rounds_shortest FloatLayout.exponential.tie (s := .binary64) hpos q
      rw [← hvalue] at hrounds
      rw [Numeral.pattern_of_rounds negative hc hpos hrounds, min_eq_left hfinite.le]
  rw [Double.ofChars?, hchars, hread, Option.map_some, hsame, UInt64.ofNat_toNat]

end Double

namespace Json

variable {x : Double}

theorem isNumber_double (h : x.isFinite = true) : IsNumber (x.text .exponential) := by
  obtain ⟨negative, m, q, hx⟩ := Double.exists_of_isFinite h
  obtain ⟨cs, hchars, hlays⟩ := Double.lays_text hx
  have hnumber := isNumber_of_lays negative hlays
  rwa [← hchars, String.ofList_toList] at hnumber

theorem double?_text (h : x.isFinite = true) : double? (x.text .exponential) = some x := by
  rw [double?, Double.ofChars?_text h, Option.filter_some, if_pos h]

/-- A finite double is read where it was written, and not taken for an integer. -/
theorem numberToUntyped_double (h : x.isFinite = true) :
    numberToUntyped (x.text .exponential) = .double x := by
  obtain ⟨negative, m, q, hx⟩ := Double.exists_of_isFinite h
  obtain ⟨cs, hchars, hlays⟩ := Double.lays_text hx
  have hinteger : integer? (x.text .exponential) = none := by
    rw [integer?, hchars, readInt64?_of_lays negative hlays]
  rw [numberToUntyped, hinteger, double?_text h]

end Json

end Marshal
