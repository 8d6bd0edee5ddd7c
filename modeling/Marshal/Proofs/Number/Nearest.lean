import Mathlib.Algebra.Order.Field.Power
import Mathlib.Data.Rat.Cast.Order
import Mathlib.Tactic.FieldSimp
import Mathlib.Tactic.Linarith
import Mathlib.Tactic.Positivity
import Mathlib.Tactic.Ring
import Marshal.Number.Binary

/-!
Rounding to the nearest binary number. Every quotient within the rounding interval of a pattern is
rounded to that pattern.
-/

namespace Marshal

/-- `x` lies between two ends; at an end only where the interval is closed. -/
def Between (closed : Bool) (lo x hi : ℚ) : Prop :=
  if closed then lo ≤ x ∧ x ≤ hi else lo < x ∧ x < hi

namespace Between

variable {closed : Bool} {lo x hi : ℚ}

theorem le (h : Between closed lo x hi) : lo ≤ x ∧ x ≤ hi := by
  cases closed with
  | true => exact h
  | false => exact ⟨h.1.le, h.2.le⟩

theorem of_lt (hlo : lo < x) (hhi : x < hi) : Between closed lo x hi := by
  cases closed with
  | true => exact ⟨hlo.le, hhi.le⟩
  | false => exact ⟨hlo, hhi⟩

theorem mul_iff {c : ℚ} (hc : 0 < c) : Between closed (lo * c) (x * c) (hi * c) ↔
    Between closed lo x hi := by
  cases closed <;> simp [Between, hc]

/-- An interval that is closed or has the ends further out. -/
theorem mono {lo' hi' : ℚ} (h : Between closed lo x hi) (hlo : lo' ≤ lo) (hhi : hi ≤ hi') :
    Between closed lo' x hi' := by
  cases closed with
  | true => exact ⟨hlo.trans h.1, h.2.trans hhi⟩
  | false => exact ⟨hlo.trans_lt h.1, h.2.trans_le hhi⟩

end Between

theorem zpow_eq_div (b : ℚ) (q : ℤ) : b ^ q = b ^ q.toNat / b ^ (-q).toNat := by
  rcases Int.le_total 0 q with h | h
  · obtain ⟨n, rfl⟩ := Int.eq_ofNat_of_zero_le h
    simp
  · obtain ⟨n, hn⟩ := Int.eq_ofNat_of_zero_le (Int.neg_nonneg_of_nonpos h)
    obtain rfl : q = -(n : ℤ) := by omega
    simp

/-- The nearest whole number is the one whose half interval the quotient lies in. -/
theorem roundDiv_eq {n d m : ℕ} (hd : 0 < d)
    (h : Between (m % 2 == 0) (m - 1 / 2) (n / d : ℚ) (m + 1 / 2)) : roundDiv n d = m := by
  have hd' : (0 : ℚ) < d := by exact_mod_cast hd
  have hn : (n : ℚ) = d * (n / d : ℕ) + (n % d : ℕ) := by exact_mod_cast (Nat.div_add_mod n d).symm
  have hr : n % d < d := Nat.mod_lt n hd
  have hx : (n / d : ℚ) = (n / d : ℕ) + (n % d : ℕ) / d := by
    rw [hn]
    field_simp
  rw [roundDiv]
  rw [hx] at h
  generalize n / d = a at h ⊢
  generalize n % d = r at h hr ⊢
  have hr0 : (0 : ℚ) ≤ r / d := by positivity
  have hr1 : (r / d : ℚ) < 1 := by
    rw [div_lt_one hd']
    exact_mod_cast hr
  -- The candidates are the whole part and the next number.
  have hm : m = a ∨ m = a + 1 := by
    obtain ⟨hlo, hhi⟩ := h.le
    have h1 : (m : ℚ) < a + 2 := by linarith
    have h2 : (a : ℚ) < m + 1 := by linarith
    have h1' : m < a + 2 := by exact_mod_cast h1
    have h2' : a < m + 1 := by exact_mod_cast h2
    omega
  have hlt_iff : (r / d : ℚ) < 1 / 2 ↔ r * 2 < d := by
    rw [div_lt_div_iff₀ hd' two_pos, one_mul]
    exact_mod_cast Iff.rfl
  have hgt_iff : (1 / 2 : ℚ) < r / d ↔ d < r * 2 := by
    rw [div_lt_div_iff₀ two_pos hd', one_mul]
    exact_mod_cast Iff.rfl
  obtain ⟨hlo, hhi⟩ := h.le
  split_ifs with hlt hgt
  · have hhalf := hlt_iff.mpr hlt
    rcases hm with rfl | rfl
    · rfl
    · push_cast at hlo
      linarith
  · have hhalf := hgt_iff.mpr hgt
    rcases hm with rfl | rfl
    · linarith
    · rfl
  · -- Halfway between the two, only the even one has an interval that holds its ends.
    have hhalf : (r / d : ℚ) = 1 / 2 :=
      le_antisymm (not_lt.mp (mt hgt_iff.mp hgt)) (not_lt.mp (mt hlt_iff.mp hlt))
    have heven : m % 2 = 0 := by
      by_contra hodd
      rw [beq_false_of_ne hodd, hhalf] at h
      obtain ⟨hlo, hhi⟩ : (m : ℚ) - 1 / 2 < a + 1 / 2 ∧ (a + 1 / 2 : ℚ) < m + 1 / 2 := h
      rcases hm with rfl | rfl
      · linarith
      · push_cast at hlo
        linarith
    rcases hm with rfl | rfl <;> omega

/-! ### Powers of two around a quotient -/

theorem log2Ratio_le {num den : ℕ} (hnum : 0 < num) (hden : 0 < den) :
    (2 : ℚ) ^ Shape.log2Ratio num den ≤ num / den ∧
      (num / den : ℚ) < 2 ^ (Shape.log2Ratio num den + 1) := by
  have hden' : (0 : ℚ) < den := by exact_mod_cast hden
  have hnumLo : (2 : ℚ) ^ num.log2 ≤ num := by exact_mod_cast Nat.log2_self_le hnum.ne'
  have hnumHi : (num : ℚ) < 2 ^ (num.log2 + 1) := by exact_mod_cast Nat.lt_log2_self
  have hdenLo : (2 : ℚ) ^ den.log2 ≤ den := by exact_mod_cast Nat.log2_self_le hden.ne'
  have hdenHi : (den : ℚ) < 2 ^ (den.log2 + 1) := by exact_mod_cast Nat.lt_log2_self
  rw [Shape.log2Ratio]
  simp only [Nat.pow_eq]
  set e : ℤ := (num.log2 : ℤ) - den.log2 with he
  have hcut : num * 2 ^ (-e).toNat < den * 2 ^ e.toNat ↔ (num / den : ℚ) < 2 ^ e := by
    rw [zpow_eq_div, div_lt_div_iff₀ hden' (by positivity), mul_comm ((2 : ℚ) ^ e.toNat)]
    exact_mod_cast Iff.rfl
  have hhi : (num / den : ℚ) < 2 ^ (e + 1) := by
    rw [div_lt_iff₀ hden']
    calc (num : ℚ) < 2 ^ (num.log2 + 1) := hnumHi
      _ = 2 ^ (e + 1) * 2 ^ den.log2 := by
          rw [← zpow_natCast, ← zpow_natCast, ← zpow_add₀ two_ne_zero]
          congr 1
          push_cast
          omega
      _ ≤ 2 ^ (e + 1) * den := by gcongr
  have hlo : (2 : ℚ) ^ (e - 1) ≤ num / den := by
    rw [le_div_iff₀ hden']
    calc (2 : ℚ) ^ (e - 1) * den ≤ 2 ^ (e - 1) * 2 ^ (den.log2 + 1) := by gcongr
      _ = 2 ^ num.log2 := by
          rw [← zpow_natCast, ← zpow_natCast, ← zpow_add₀ two_ne_zero]
          congr 1
          push_cast
          omega
      _ ≤ num := hnumLo
  split_ifs with h
  · exact ⟨hlo, by rw [sub_add_cancel]; exact hcut.mp h⟩
  · exact ⟨not_lt.mp (mt hcut.mpr h), hhi⟩

namespace Shape

variable {s : Shape} {m : ℕ} {q : ℤ}

/-! ### Rounding intervals -/

/-- The numbers `m · 2^q` that a pattern stands for: those with a full fraction, and those of the
least power. -/
structure Canonical (s : Shape) (m : ℕ) (q : ℤ) : Prop where
  power : s.minPower ≤ q
  lt : m < 2 ^ (s.fraction + 1)
  full : 2 ^ s.fraction ≤ m ∨ q = s.minPower

/-- How far the interval of `m · 2^q` goes down, in units of `2^q`. Below a power of two the numbers
lie closer together. -/
def reach (s : Shape) (m : ℕ) (q : ℤ) : ℚ :=
  if m = 2 ^ s.fraction ∧ s.minPower < q then 1 / 4 else 1 / 2

theorem reach_le (s : Shape) (m : ℕ) (q : ℤ) : s.reach m q ≤ 1 / 2 := by
  rw [reach]
  split_ifs <;> norm_num

def Rounds (s : Shape) (m : ℕ) (q : ℤ) (x : ℚ) : Prop :=
  Between (m % 2 == 0) ((m - s.reach m q) * 2 ^ q) x ((m + 1 / 2) * 2 ^ q)

def magnitude (s : Shape) (m : ℕ) (q : ℤ) : ℕ :=
  (q - s.minPower).toNat * 2 ^ s.fraction + m

theorem Canonical.magnitude_eq_zero (h : s.Canonical m q) (hm : m = 0) : s.magnitude m q = 0 := by
  subst hm
  have hq : q = s.minPower := h.full.resolve_left (Nat.not_le.mpr (Nat.two_pow_pos _))
  simp [magnitude, hq]

/-- What is rounded at the power of the pattern itself. -/
theorem roundDiv_of_rounds {num den : ℕ} (hden : 0 < den) (h : s.Rounds m q (num / den)) :
    roundDiv (num * 2 ^ (-q).toNat) (den * 2 ^ q.toNat) = m := by
  have hden' : (den : ℚ) ≠ 0 := by exact_mod_cast hden.ne'
  have hscale : ((num * 2 ^ (-q).toNat : ℕ) / (den * 2 ^ q.toNat : ℕ) : ℚ) * 2 ^ q = num / den := by
    rw [zpow_eq_div]
    push_cast
    field_simp
  refine roundDiv_eq (by positivity) ?_
  rw [← Between.mul_iff (c := 2 ^ q) (by positivity), hscale]
  refine h.mono ?_ le_rfl
  have hreach := s.reach_le m q
  gcongr

theorem Rounds.pos {x : ℚ} (hm : 0 < m) (h : s.Rounds m q x) : 0 < x := by
  have hreach := s.reach_le m q
  have hm' : (1 : ℚ) ≤ m := by exact_mod_cast hm
  have hlo : (0 : ℚ) < (m - s.reach m q) * 2 ^ q := mul_pos (by linarith) (by positivity)
  exact hlo.trans_le h.le.1

/-- Nothing in the interval is as large as the numbers of the next power. -/
theorem Rounds.lt {x : ℚ} (hc : s.Canonical m q) (h : s.Rounds m q x) :
    x < 2 ^ (s.fraction + 1 + q) := by
  have hm : (m : ℚ) + 1 ≤ 2 ^ (s.fraction + 1) := by exact_mod_cast hc.lt
  calc x ≤ (m + 1 / 2) * 2 ^ q := h.le.2
    _ < 2 ^ (s.fraction + 1) * 2 ^ q := by
        have hpos : (0 : ℚ) < 2 ^ q := by positivity
        gcongr
        linarith
    _ = 2 ^ (s.fraction + 1 + q) := by
        rw [zpow_add₀ two_ne_zero]
        congr 1

/-- Only below the least number of a power does the interval reach into the power before. -/
theorem Rounds.eq_of_lt {x : ℚ} (hc : s.Canonical m q) (hq : s.minPower < q)
    (h : s.Rounds m q x) (hx : x < 2 ^ (s.fraction + q)) : m = 2 ^ s.fraction := by
  have hfull : 2 ^ s.fraction ≤ m := hc.full.resolve_right hq.ne'
  have hreach := s.reach_le m q
  have hlt : ((m : ℚ) - s.reach m q) * 2 ^ q < 2 ^ s.fraction * 2 ^ q := by
    calc ((m : ℚ) - s.reach m q) * 2 ^ q ≤ x := h.le.1
      _ < 2 ^ (s.fraction + q) := hx
      _ = 2 ^ s.fraction * 2 ^ q := by rw [zpow_add₀ two_ne_zero, zpow_natCast]
  have hlt' := lt_of_mul_lt_mul_right hlt (by positivity)
  have hm : (m : ℚ) < 2 ^ s.fraction + 1 := by linarith
  have hm' : m < 2 ^ s.fraction + 1 := by exact_mod_cast hm
  omega

/-- What is rounded one power down, just below a power of two. -/
theorem roundDiv_below {num den : ℕ} (hden : 0 < den) (hq : s.minPower < q)
    (h : s.Rounds (2 ^ s.fraction) q (num / den)) (hx : (num / den : ℚ) < 2 ^ (s.fraction + q)) :
    roundDiv (num * 2 ^ (-(q - 1)).toNat) (den * 2 ^ (q - 1).toNat) = 2 ^ (s.fraction + 1) := by
  have hden' : (den : ℚ) ≠ 0 := by exact_mod_cast hden.ne'
  have hscale : ((num * 2 ^ (-(q - 1)).toNat : ℕ) / (den * 2 ^ (q - 1).toNat : ℕ) : ℚ) *
      2 ^ (q - 1) = num / den := by
    rw [zpow_eq_div]
    push_cast
    field_simp
  have hpower : (2 : ℚ) ^ q = 2 * 2 ^ (q - 1) := by
    rw [zpow_sub_one₀ two_ne_zero]
    ring
  have hclosed : (2 ^ (s.fraction + 1) % 2 == 0) = true := by
    rw [pow_succ, Nat.mul_mod_left]
    rfl
  refine roundDiv_eq (by positivity) ?_
  rw [← Between.mul_iff (c := 2 ^ (q - 1)) (by positivity), hscale, hclosed]
  have hlo := h.le.1
  rw [reach, if_pos ⟨rfl, hq⟩, hpower] at hlo
  rw [zpow_add₀ two_ne_zero, zpow_natCast, hpower] at hx
  push_cast at hlo ⊢
  have hpos : (0 : ℚ) < 2 ^ (q - 1) := by positivity
  refine ⟨le_trans (le_of_eq ?_) hlo, hx.le.trans ?_⟩
  · ring
  · have hhalf : (0 : ℚ) ≤ 1 / 2 * 2 ^ (q - 1) := by positivity
    calc (2 : ℚ) ^ s.fraction * (2 * 2 ^ (q - 1))
        ≤ 2 ^ s.fraction * (2 * 2 ^ (q - 1)) + 1 / 2 * 2 ^ (q - 1) := by linarith
      _ = (2 ^ (s.fraction + 1) + 1 / 2) * 2 ^ (q - 1) := by ring

/-- Every quotient in the interval of a pattern is rounded to the pattern, if that is finite. -/
theorem nearest_of_rounds {num den : ℕ} (hden : 0 < den) (hc : s.Canonical m q) (hm : 0 < m)
    (h : s.Rounds m q (num / den)) :
    s.nearest num den = min (s.magnitude m q) s.infinity := by
  have hx := h.pos hm
  have hnum : 0 < num := by
    rcases Nat.eq_zero_or_pos num with rfl | hnum
    · simp at hx
    · exact hnum
  obtain ⟨hlo, hhi⟩ := log2Ratio_le hnum hden
  simp only [nearest, if_neg hnum.ne', Nat.pow_eq]
  set e := log2Ratio num den
  have hle : e - s.fraction ≤ q := by
    have hlt := (zpow_lt_zpow_iff_right₀ (one_lt_two (α := ℚ))).mp (hlo.trans_lt (h.lt hc))
    omega
  rcases (max_le hle hc.power).eq_or_lt with hq | hq
  · rw [hq, roundDiv_of_rounds hden h]
    rfl
  · -- The quotient has a lower power than the pattern: it is less than a power of two that the
    -- pattern stands for.
    obtain ⟨hlt, hmin⟩ := max_lt_iff.mp hq
    have hbelow : (num / den : ℚ) < 2 ^ (s.fraction + q) :=
      hhi.trans_le (zpow_le_zpow_right₀ one_le_two (by omega))
    obtain rfl := h.eq_of_lt hc hmin hbelow
    have he : e = s.fraction + q - 1 := by
      have hquarter : (2 : ℚ) ^ (s.fraction + q - 1) ≤ num / den := by
        refine le_trans ?_ h.le.1
        have hone : (1 : ℚ) ≤ 2 ^ s.fraction := one_le_pow₀ one_le_two
        have hreach := s.reach_le (2 ^ s.fraction) q
        calc (2 : ℚ) ^ (s.fraction + q - 1) = 1 / 2 * 2 ^ s.fraction * 2 ^ q := by
              rw [zpow_sub_one₀ two_ne_zero, zpow_add₀ two_ne_zero, zpow_natCast]
              ring
          _ ≤ _ := by
              push_cast
              have hpos : (0 : ℚ) < 2 ^ q := by positivity
              gcongr
              linarith
      have hlt := (zpow_lt_zpow_iff_right₀ (one_lt_two (α := ℚ))).mp (hquarter.trans_lt hhi)
      omega
    have hq' : max (e - s.fraction) s.minPower = q - 1 := by omega
    rw [hq', roundDiv_below hden hmin h hbelow]
    have hmagnitude : (q - 1 - s.minPower).toNat * 2 ^ s.fraction + 2 ^ (s.fraction + 1) =
        s.magnitude (2 ^ s.fraction) q := by
      obtain ⟨k, hk⟩ : ∃ k : ℕ, q - s.minPower = k + 1 := ⟨(q - s.minPower - 1).toNat, by omega⟩
      have hk' : q - 1 - s.minPower = k := by omega
      rw [magnitude, hk, hk']
      simp only [Int.toNat_natCast, Int.toNat_natCast_add_one]
      ring
    rw [hmagnitude]

/-! ### Patterns -/

theorem signed_of_lt {bits : ℕ} (h : bits < 2 * s.signBit) :
    bits = s.signed (bits / s.signBit % 2 == 1) (bits % s.signBit) := by
  have hdiv := Nat.div_add_mod bits s.signBit
  have hlt : bits / s.signBit < 2 := Nat.div_lt_of_lt_mul (by rwa [mul_comm] at h)
  rw [signed]
  generalize bits / s.signBit = high at *
  obtain rfl | rfl : high = 0 ∨ high = 1 := by omega
  · rw [Nat.mul_zero, Nat.zero_add] at hdiv
    exact hdiv.symm
  · rw [Nat.mul_one] at hdiv
    exact hdiv.symm

/-- A finite pattern is the one of its number. -/
theorem decode_eq_finite {bits : ℕ} {negative : Bool} (hbits : bits < 2 * s.signBit)
    (h : s.decode bits = .finite negative m q) :
    s.Canonical m q ∧ s.magnitude m q < s.infinity ∧
      bits = s.signed negative (s.magnitude m q) := by
  have hsigned := signed_of_lt hbits
  simp only [decode, Nat.pow_eq] at h
  generalize bits % s.signBit = magnitude at h hsigned
  have hsplit := Nat.div_add_mod magnitude (2 ^ s.fraction)
  have hf : magnitude % 2 ^ s.fraction < 2 ^ s.fraction := Nat.mod_lt _ (by positivity)
  generalize magnitude / 2 ^ s.fraction = e at h hsplit
  generalize magnitude % 2 ^ s.fraction = f at h hsplit hf
  split_ifs at h with hnan hinf hzero
  · cases h
    have hmagnitude : s.magnitude m s.minPower = magnitude := by
      simp [Shape.magnitude, ← hsplit, hzero]
    rw [hmagnitude]
    exact ⟨⟨le_rfl, by rw [pow_succ]; omega, .inr rfl⟩, by omega, hsigned⟩
  · cases h
    obtain ⟨k, rfl⟩ : ∃ k, e = k + 1 := Nat.exists_eq_succ_of_ne_zero hzero
    have hmagnitude : s.magnitude (2 ^ s.fraction + f) (s.minPower + (((k + 1 : ℕ) : ℤ) - 1)) =
        magnitude := by
      have hk : s.minPower + (((k + 1 : ℕ) : ℤ) - 1) - s.minPower = k := by
        push_cast
        ring
      rw [Shape.magnitude, hk, Int.toNat_natCast, ← hsplit]
      ring
    rw [hmagnitude]
    exact ⟨⟨by omega, by rw [pow_succ]; omega, .inl (Nat.le_add_right ..)⟩, by omega, hsigned⟩

end Shape

end Marshal
