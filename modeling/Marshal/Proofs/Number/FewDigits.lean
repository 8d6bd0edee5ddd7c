import Mathlib.Data.Int.Log
import Mathlib.Data.Rat.Floor
import Marshal.Proofs.Json.Doubles

/-!
Decimal numbers that binary ones stand for: up to fifteen digits come back from the nearest double.
-/

namespace Marshal

namespace Between

variable {closed : Bool} {lo x hi : ℚ}

theorem raise {y : ℚ} (h : Between closed lo x hi) (hxy : x ≤ y) (hy : y < hi) :
    Between closed lo y hi := by
  cases closed with
  | true => exact ⟨h.1.trans hxy, hy.le⟩
  | false => exact ⟨h.1.trans_le hxy, hy⟩

theorem lower {y : ℚ} (h : Between closed lo x hi) (hy : lo < y) (hyx : y ≤ x) :
    Between closed lo y hi := by
  cases closed with
  | true => exact ⟨hy.le, hyx.trans h.2⟩
  | false => exact ⟨hy, hyx.trans_lt h.2⟩

/-- Another lower end, below what is between. -/
theorem from_lt {lo' : ℚ} (h : Between closed lo x hi) (hlo : lo' < x) :
    Between closed lo' x hi := by
  cases closed with
  | true => exact ⟨hlo.le, h.2⟩
  | false => exact ⟨hlo, h.2⟩

end Between

/-- Every number has a nearest whole one, and halves have an even one. -/
theorem exists_between {z : ℚ} (hz : 0 ≤ z) :
    ∃ a : ℕ, Between (a % 2 == 0) (a - 1 / 2) z (a + 1 / 2) := by
  have hlo := Nat.floor_le hz
  have hhi := Nat.lt_floor_add_one z
  generalize ⌊z⌋₊ = a at hlo hhi
  rcases lt_trichotomy z (a + 1 / 2) with hlt | heq | hgt
  · exact ⟨a, .of_lt (by linarith) hlt⟩
  · rcases Nat.mod_two_eq_zero_or_one a with heven | hodd
    · refine ⟨a, ?_⟩
      rw [heven]
      exact ⟨by linarith, heq.le⟩
    · have heven : (a + 1) % 2 = 0 := by omega
      refine ⟨a + 1, ?_⟩
      rw [heven]
      exact ⟨by push_cast; linarith, by push_cast; linarith⟩
  · exact ⟨a + 1, .of_lt (by push_cast; linarith) (by push_cast; linarith)⟩

namespace Shape

variable {s : Shape} {m m' : ℕ} {q q' : ℤ}

/-- From the least number with a full fraction on, every number is rounded to one with a full
fraction. -/
theorem exists_rounds (hs : s.fraction ≠ 0) {x : ℚ} (hx : 2 ^ (s.minPower + s.fraction) ≤ x) :
    ∃ m q, s.Canonical m q ∧ 2 ^ s.fraction ≤ m ∧ s.Rounds m q x := by
  have hpos : 0 < x := lt_of_lt_of_le (by positivity) hx
  have hlo : (2 : ℚ) ^ Int.log 2 x ≤ x := Int.zpow_log_le_self one_lt_two hpos
  have hhi : x < (2 : ℚ) ^ (Int.log 2 x + 1) := Int.lt_zpow_succ_log_self one_lt_two x
  generalize Int.log 2 x = e at hlo hhi
  have he : s.minPower + s.fraction ≤ e := by
    have hlt := (zpow_lt_zpow_iff_right₀ (one_lt_two (α := ℚ))).mp (hx.trans_lt hhi)
    omega
  obtain ⟨q, rfl⟩ : ∃ q, e = s.fraction + q := ⟨e - s.fraction, by omega⟩
  have hq : (0 : ℚ) < 2 ^ q := by positivity
  have hlo' : (2 : ℚ) ^ s.fraction ≤ x / 2 ^ q := by
    rw [le_div_iff₀ hq, ← zpow_natCast, ← zpow_add₀ two_ne_zero]
    exact hlo
  have hhi' : x / 2 ^ q < 2 ^ (s.fraction + 1) := by
    rw [div_lt_iff₀ hq, ← zpow_natCast, ← zpow_add₀ two_ne_zero]
    exact hhi.trans_eq (congrArg _ (by push_cast; ring))
  obtain ⟨m, hm⟩ := exists_between (z := x / 2 ^ q) (by positivity)
  have hmin : 2 ^ s.fraction ≤ m := by
    have hlt : (2 : ℚ) ^ s.fraction < m + 1 := by linarith [hm.le.2]
    exact Nat.lt_succ_iff.mp (by exact_mod_cast hlt)
  have hmax : m ≤ 2 ^ (s.fraction + 1) := by
    have hlt : (m : ℚ) < 2 ^ (s.fraction + 1) + 1 := by linarith [hm.le.1]
    exact Nat.lt_succ_iff.mp (by exact_mod_cast hlt)
  have hm' := (Between.mul_iff hq).mpr hm
  rw [div_mul_cancel₀ x hq.ne'] at hm'
  rcases hmax.lt_or_eq with hlt | rfl
  · refine ⟨m, q, ⟨by omega, hlt, .inl hmin⟩, hmin, ?_⟩
    rw [Rounds, reach]
    split_ifs with hleast
    · -- The interval goes down less far, but `x` is not below `m · 2^q` at all.
      refine hm'.from_lt ?_
      rw [← lt_div_iff₀ hq, hleast.1]
      push_cast
      linarith
    · exact hm'
  · -- Rounding has reached the next power.
    have hnext : (2 : ℚ) ^ (q + 1) = 2 * 2 ^ q := by
      rw [zpow_add_one₀ two_ne_zero, mul_comm]
    refine ⟨2 ^ s.fraction, q + 1, ⟨by omega, Nat.pow_lt_pow_succ one_lt_two, .inl le_rfl⟩,
      le_rfl, ?_⟩
    have heven : 2 ^ s.fraction % 2 = 0 := Nat.mod_eq_zero_of_dvd (dvd_pow_self 2 hs)
    rw [Rounds, reach, if_pos ⟨rfl, by omega⟩, heven, hnext]
    have hlow := hm'.le.1
    rw [div_lt_iff₀ hq] at hhi'
    push_cast at hlow hhi' ⊢
    rw [pow_succ] at hlow hhi'
    exact ⟨by linarith, by linarith⟩

/-- A pattern is that of one number only. -/
theorem Canonical.eq_of_magnitude (h : s.Canonical m q) (h' : s.Canonical m' q')
    (heq : s.magnitude m q = s.magnitude m' q') : m = m' ∧ q = q' := by
  have hle {m m' : ℕ} {q q' : ℤ} (h : s.Canonical m q) (h' : s.Canonical m' q')
      (heq : s.magnitude m q = s.magnitude m' q') : q' ≤ q := by
    by_contra hlt
    obtain ⟨k, hk⟩ := Int.eq_ofNat_of_zero_le (Int.sub_nonneg_of_le h.power)
    obtain ⟨j, hj⟩ : ∃ j : ℕ, q' - s.minPower = (k + j + 1 : ℕ) :=
      ⟨(q' - q - 1).toNat, by push_cast; omega⟩
    have hm := h.lt
    have hfull := h'.full.resolve_right (by omega)
    rw [magnitude, magnitude, hk, hj, Int.toNat_natCast, Int.toNat_natCast, add_mul, add_mul] at heq
    rw [pow_succ] at hm
    omega
  have hq : q = q' := le_antisymm (hle h' h heq.symm) (hle h h' heq)
  subst hq
  exact ⟨Nat.add_left_cancel heq, rfl⟩

end Shape

namespace Scaled

/-! ### Coarse grids -/

section Search

variable {tie : Tie} {v lo hi n g : ℕ} {closed : Bool}

/-- Wherever a multiple of `10^k` lies in the interval, one next to `v` does. -/
theorem onGrid?_ne_none (tie : Tie) {k d : ℕ} (hlo : lo < v) (hhi : v < hi)
    (h : Between closed lo ((d * 10 ^ k : ℕ) : ℚ) hi) : onGrid? tie v lo hi closed k ≠ none := by
  have hlo' : (lo : ℚ) < v := by exact_mod_cast hlo
  have hhi' : (v : ℚ) < hi := by exact_mod_cast hhi
  have hpos : 0 < 10 ^ k := Nat.pow_pos (by decide)
  intro hnone
  simp only [onGrid?, Nat.pow_eq] at hnone
  split at hnone
  case h_4 hlow hhigh =>
    rcases Nat.lt_or_ge (v / 10 ^ k) d with hd | hd
    · -- The multiple is above `v`, so the next one above is not further away.
      have habove : v < (v / 10 ^ k + 1) * 10 ^ k := Nat.lt_mul_of_div_lt (Nat.lt_succ_self _) hpos
      have hle : (v / 10 ^ k + 1) * 10 ^ k ≤ d * 10 ^ k := Nat.mul_le_mul_right _ hd
      rw [inside_iff.mpr (h.lower (hlo'.trans (by exact_mod_cast habove)) (by exact_mod_cast hle))]
        at hhigh
      cases hhigh
    · have hbelow : v / 10 ^ k * 10 ^ k ≤ v := Nat.div_mul_le_self v _
      have hle : d * 10 ^ k ≤ v / 10 ^ k * 10 ^ k := Nat.mul_le_mul_right _ hd
      have hlt : ((v / 10 ^ k * 10 ^ k : ℕ) : ℚ) < hi :=
        lt_of_le_of_lt (by exact_mod_cast hbelow) hhi'
      rw [inside_iff.mpr (h.raise (by exact_mod_cast hle) hlt)] at hlow
      cases hlow
  all_goals cases hnone

/-- On a grid that is coarser than the interval is long there is one hit at most. -/
theorem eq_of_onGrid? (hlength : hi < lo + 10 ^ g)
    (h : Between closed lo ((n * 10 ^ g : ℕ) : ℚ) hi) {k d : ℕ} (hk : g ≤ k)
    (hgrid : onGrid? tie v lo hi closed k = some d) : d * 10 ^ k = n * 10 ^ g := by
  obtain ⟨i, rfl⟩ := Nat.exists_eq_add_of_le hk
  have hmultiple : d * 10 ^ (g + i) = d * 10 ^ i * 10 ^ g := by ring
  have hhit := (between_of_onGrid? hgrid).le
  have hn := h.le
  rw [hmultiple]
  congr 1
  have hcast : (d : ℚ) * 10 ^ (g + i) = ((d * 10 ^ i * 10 ^ g : ℕ) : ℚ) := by
    rw [← hmultiple]
    push_cast
    rfl
  rw [hcast] at hhit
  have hone (a b : ℕ) (ha : a * 10 ^ g ≤ hi) (hb : lo ≤ b * 10 ^ g) : a ≤ b := by
    have hlt : a * 10 ^ g < (b + 1) * 10 ^ g := by
      rw [Nat.add_mul, Nat.one_mul]
      omega
    exact Nat.lt_succ_iff.mp (Nat.lt_of_mul_lt_mul_right hlt)
  exact le_antisymm (hone _ _ (by exact_mod_cast hhit.2) (by exact_mod_cast hn.1))
    (hone _ _ (by exact_mod_cast hn.2) (by exact_mod_cast hhit.1))

theorem search_of_some {k d : ℕ} (h : onGrid? tie v lo hi closed k = some d) :
    search tie v lo hi closed k = (d, k) := by
  cases k <;> simp only [search, h, Option.getD_some]

/-- From coarse grids down, the search comes to the only multiple of `10^g` in the interval. -/
theorem search_eq (tie : Tie) (hlo : lo < v) (hhi : v < hi) (hlength : hi < lo + 10 ^ g)
    (h : Between closed lo ((n * 10 ^ g : ℕ) : ℚ) hi) {k : ℕ} (hk : g ≤ k) :
    (search tie v lo hi closed k).1 * 10 ^ (search tie v lo hi closed k).2 = n * 10 ^ g := by
  induction k, hk using Nat.le_induction with
  | base =>
      obtain ⟨d, hd⟩ := Option.ne_none_iff_exists'.mp (onGrid?_ne_none tie hlo hhi h)
      rw [search_of_some hd]
      exact eq_of_onGrid? hlength h le_rfl hd
  | succ k hk ih =>
      cases hgrid : onGrid? tie v lo hi closed (k + 1) with
      | some d =>
          rw [search_of_some hgrid]
          exact eq_of_onGrid? hlength h (by omega) hgrid
      | none =>
          rw [search, hgrid]
          exact ih

end Search

/-! ### Fifteen digits -/

variable {tie : Tie} {m d : ℕ} {q j : ℤ}

/-- Fifteen digits are so coarse, next to doubles with a full fraction, that there are no others in
a rounding interval. -/
theorem sixteen_unit_lt (hm : 2 ^ 52 ≤ m) (hd : d < 10 ^ 15)
    (h : Shape.binary64.Rounds m q (d * 10 ^ j)) :
    (16 * unit q : ℚ) < 10 ^ (j + places q) := by
  have hq : (0 : ℚ) < 2 ^ q := by positivity
  have hreach := Shape.binary64.reach_le m q
  have hm' : (2 : ℚ) ^ 52 ≤ m := by exact_mod_cast hm
  have hd' : (d : ℚ) ≤ 10 ^ 15 - 1 := by
    have hlt : (d : ℚ) + 1 ≤ 10 ^ 15 := by exact_mod_cast hd
    linarith
  have hj : (0 : ℚ) < 10 ^ j := by positivity
  have hfour : (4 : ℚ) * 2 ^ q < 10 ^ j := by
    have hlow : ((2 : ℚ) ^ 52 - 1 / 2) * 2 ^ q ≤ (10 ^ 15 - 1) * 10 ^ j := calc
      _ ≤ (m - Shape.binary64.reach m q) * 2 ^ q := by gcongr
      _ ≤ d * 10 ^ j := h.le.1
      _ ≤ (10 ^ 15 - 1) * 10 ^ j := by gcongr
    norm_num at hlow
    linarith
  calc (16 * unit q : ℚ) = 4 * 2 ^ q * 10 ^ places q := by
        have hunit := four_mul_unit q
        linarith
    _ < 10 ^ j * 10 ^ places q := by gcongr
    _ = 10 ^ (j + places q) := by rw [zpow_add₀ (by norm_num), zpow_natCast]

theorem upper_lt_lower_add {g : ℕ} (hm : 0 < m) (hg : 16 * unit q < 10 ^ g) :
    upper m q < lower .binary64 m q + 10 ^ g := by
  have hwidth : upper m q ≤ lower .binary64 m q + 4 * unit q := by
    rw [upper, lower, ← Nat.add_mul]
    refine Nat.mul_le_mul_right _ ?_
    split_ifs <;> omega
  omega

theorem le_length_of_two_le {g : ℕ} (hm : 0 < m) (hd : 2 ≤ d) (h : d * 10 ^ g ≤ upper m q) :
    g ≤ (natChars (4 * m * unit q)).length - 1 := by
  have hdouble : upper m q ≤ 2 * (4 * m * unit q) := by
    rw [upper, ← Nat.mul_assoc]
    exact Nat.mul_le_mul_right _ (by omega)
  have htwice : 2 * 10 ^ g ≤ d * 10 ^ g := Nat.mul_le_mul_right _ hd
  have hlt : 10 ^ g < 10 ^ (natChars (4 * m * unit q)).length :=
    Nat.lt_of_le_of_lt (by omega) (lt_pow_length_natChars _)
  exact Nat.le_sub_one_of_lt ((Nat.pow_lt_pow_iff_right (by decide)).mp hlt)

/-- As `value_shortest_of_few`, where the digits are not the one that a power of ten has. -/
theorem value_shortest_of_two_le (hm : 2 ^ 52 ≤ m) (htwo : 2 ≤ d) (hd : d < 10 ^ 15)
    (h : Shape.binary64.Rounds m q (d * 10 ^ j)) :
    (shortest tie .binary64 m q).value = d * 10 ^ j := by
  have hpos : 0 < m := Nat.lt_of_lt_of_le (by decide) hm
  have hcoarse := sixteen_unit_lt hm hd h
  obtain ⟨g, hg⟩ : ∃ g : ℕ, j + places q = g := by
    have hone : (1 : ℚ) ≤ unit q := by exact_mod_cast unit_pos q
    have hzero : (10 : ℚ) ^ (0 : ℤ) < 10 ^ (j + places q) := by
      rw [zpow_zero]
      linarith
    have hlt := (zpow_lt_zpow_iff_right₀ (by norm_num)).mp hzero
    exact Int.eq_ofNat_of_zero_le hlt.le
  have hscaled : (d : ℚ) * 10 ^ j * 10 ^ places q = ((d * 10 ^ g : ℕ) : ℚ) := by
    have hpower : (10 : ℚ) ^ j * 10 ^ places q = 10 ^ g := by
      rw [← zpow_natCast, ← zpow_natCast, ← zpow_add₀ (by norm_num), hg]
    rw [mul_assoc, hpower]
    push_cast
    rfl
  rw [hg, zpow_natCast] at hcoarse
  have hbetween := (rounds_iff hpos).mp h
  rw [hscaled] at hbetween
  have hfound := search_eq tie (lower_lt _ hpos q) (lt_upper m q)
    (upper_lt_lower_add hpos (by exact_mod_cast hcoarse)) hbetween
    (le_length_of_two_le hpos htwo (by exact_mod_cast hbetween.le.2))
  have hten : (10 : ℚ) ^ places q ≠ 0 := by positivity
  refine mul_right_cancel₀ hten ?_
  rw [value_shortest, hscaled, ← hfound]
  push_cast
  rfl

/-- A number of up to fifteen digits is what the shortest digits spell, if it is rounded to a double
with a full fraction. -/
theorem value_shortest_of_few (hm : 2 ^ 52 ≤ m) (hd : d < 10 ^ 15)
    (h : Shape.binary64.Rounds m q (d * 10 ^ j)) :
    (shortest tie .binary64 m q).value = d * 10 ^ j := by
  have hpos := h.pos (Nat.lt_of_lt_of_le (by decide) hm)
  rcases Nat.lt_or_ge d 2 with hlt | htwo
  · obtain rfl : d = 1 := by
      have hne : d ≠ 0 := by
        rintro rfl
        simp at hpos
      omega
    have hten : ((1 : ℕ) : ℚ) * 10 ^ j = (10 : ℕ) * 10 ^ (j - 1) := by
      rw [zpow_sub_one₀ (by norm_num)]
      push_cast
      ring
    rw [hten] at h ⊢
    exact value_shortest_of_two_le hm (by decide) (by decide) h
  · exact value_shortest_of_two_le hm htwo hd h

end Scaled

end Marshal
