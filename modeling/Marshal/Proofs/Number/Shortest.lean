import Marshal.Number.Shortest
import Marshal.Proofs.Number.Nearest

/-!
The shortest digits of a binary number lie in its rounding interval, so whoever rounds them gets the
number back.
-/

namespace Marshal

namespace Scaled

def value (x : Scaled) : ℚ :=
  x.digits * 10 ^ x.exponent

variable {tie : Tie} {v lo hi : ℕ} {closed : Bool}

theorem inside_iff {x : ℕ} :
    (if closed then decide (lo ≤ x) && decide (x ≤ hi)
      else decide (lo < x) && decide (x < hi)) = true ↔ Between closed lo (x : ℚ) hi := by
  cases closed <;> simp [Between]

/-- A hit on a grid is inside the interval. -/
theorem between_of_onGrid? {k d : ℕ} (h : onGrid? tie v lo hi closed k = some d) :
    Between closed lo (d * 10 ^ k : ℚ) hi := by
  simp only [onGrid?, Nat.pow_eq] at h
  have hcast (x : ℕ) : ((x * 10 ^ k : ℕ) : ℚ) = x * 10 ^ k := by push_cast; rfl
  rw [← hcast]
  split at h
  case h_1 hlow hhigh =>
    cases h
    split_ifs
    · exact inside_iff.mp hlow
    · exact inside_iff.mp hhigh
  case h_2 hlow _ =>
    cases h
    exact inside_iff.mp hlow
  case h_3 _ hhigh =>
    cases h
    exact inside_iff.mp hhigh
  case h_4 => cases h

/-- The search ends with digits inside the interval. -/
theorem between_search (tie : Tie) (closed : Bool) (hlo : lo < v) (hhi : v < hi) (k : ℕ) :
    Between closed lo ((search tie v lo hi closed k).1 * 10 ^ (search tie v lo hi closed k).2 : ℚ)
      hi := by
  induction k with
  | zero =>
      rw [search]
      cases hgrid : onGrid? tie v lo hi closed 0 with
      | some d => exact between_of_onGrid? hgrid
      | none =>
          have hlo' : (lo : ℚ) < v := by exact_mod_cast hlo
          have hhi' : (v : ℚ) < hi := by exact_mod_cast hhi
          simpa using Between.of_lt hlo' hhi'
  | succ k ih =>
      rw [search]
      cases hgrid : onGrid? tie v lo hi closed (k + 1) with
      | some d => exact between_of_onGrid? hgrid
      | none => exact ih

/-- Zeros at the end say as much as the exponent does. -/
theorem value_dropZeros (fuel d : ℕ) (e : ℤ) : (dropZeros fuel d e).value = d * 10 ^ e := by
  induction fuel generalizing d e with
  | zero => rfl
  | succ fuel ih =>
      rw [dropZeros]
      split_ifs with hzero
      · have hd : (d : ℚ) = 10 * (d / 10 : ℕ) := by
          exact_mod_cast (Nat.mul_div_cancel' (Nat.dvd_of_mod_eq_zero hzero)).symm
        rw [ih, hd, zpow_add_one₀ (by norm_num)]
        ring
      · rfl

/-! ### The units of the search -/

/-- How many decimal places make the ends of the interval whole. -/
def places (q : ℤ) : ℕ :=
  (2 - q).toNat

/-- A quarter of `2^q`, counted in `10^-places`. -/
def unit (q : ℤ) : ℕ :=
  2 ^ (q - 2).toNat * 5 ^ places q

def lower (s : Shape) (m : ℕ) (q : ℤ) : ℕ :=
  (4 * m - if m = 2 ^ s.fraction ∧ s.minPower < q then 1 else 2) * unit q

def upper (m : ℕ) (q : ℤ) : ℕ :=
  (4 * m + 2) * unit q

variable {s : Shape} {m : ℕ} {q : ℤ}

theorem unit_pos (q : ℤ) : 0 < unit q := by
  rw [unit]
  positivity

theorem four_mul_unit (q : ℤ) : (4 : ℚ) * unit q = 2 ^ q * 10 ^ places q := by
  have hten : (10 : ℚ) ^ places q = 2 ^ places q * 5 ^ places q := by
    rw [← mul_pow]
    norm_num
  have htwo : (2 : ℚ) ^ q * 2 ^ places q = 4 * 2 ^ (q - 2).toNat := by
    have hfour : (4 : ℚ) = 2 ^ (2 : ℤ) := by norm_num
    rw [hfour, ← zpow_natCast, ← zpow_natCast, ← zpow_add₀ two_ne_zero, ← zpow_add₀ two_ne_zero]
    congr 1
    rw [places]
    omega
  rw [unit, Nat.cast_mul, Nat.cast_pow, Nat.cast_pow, hten, ← mul_assoc, ← mul_assoc,
    Nat.cast_ofNat, Nat.cast_ofNat, htwo]

theorem lower_lt (s : Shape) (hm : 0 < m) (q : ℤ) : lower s m q < 4 * m * unit q := by
  refine Nat.mul_lt_mul_of_pos_right ?_ (unit_pos q)
  split_ifs <;> omega

theorem lt_upper (m : ℕ) (q : ℤ) : 4 * m * unit q < upper m q :=
  Nat.mul_lt_mul_of_pos_right (by omega) (unit_pos q)

/-- The rounding interval in the units of the search. -/
theorem rounds_iff {x : ℚ} (hm : 0 < m) : s.Rounds m q x ↔
    Between (m % 2 == 0) (lower s m q) (x * 10 ^ places q) (upper m q) := by
  have hlower : (lower s m q : ℚ) = (m - s.reach m q) * 2 ^ q * 10 ^ places q := by
    have hreach : ((4 * m - if m = 2 ^ s.fraction ∧ s.minPower < q then 1 else 2 : ℕ) : ℚ) =
        4 * (m - s.reach m q) := by
      rw [Nat.cast_sub (by split_ifs <;> omega), Shape.reach]
      split_ifs <;> push_cast <;> ring
    rw [lower, Nat.cast_mul, hreach, mul_assoc _ (2 ^ q : ℚ), ← four_mul_unit]
    ring
  have hupper : (upper m q : ℚ) = (m + 1 / 2) * 2 ^ q * 10 ^ places q := by
    rw [upper, Nat.cast_mul, mul_assoc _ (2 ^ q : ℚ), ← four_mul_unit]
    push_cast
    ring
  rw [hlower, hupper, Between.mul_iff (by positivity), Shape.Rounds]

def found (tie : Tie) (s : Shape) (m : ℕ) (q : ℤ) : ℕ × ℕ :=
  search tie (4 * m * unit q) (lower s m q) (upper m q) (m % 2 == 0)
    ((natChars (4 * m * unit q)).length - 1)

theorem value_shortest (tie : Tie) (s : Shape) (m : ℕ) (q : ℤ) :
    (shortest tie s m q).value * 10 ^ places q =
      (found tie s m q).1 * 10 ^ (found tie s m q).2 := by
  have hvalue : (shortest tie s m q).value =
      (found tie s m q).1 * 10 ^ (((found tie s m q).2 : ℤ) - places q) := value_dropZeros ..
  rw [hvalue, mul_assoc, ← zpow_natCast, ← zpow_natCast, ← zpow_add₀ (by norm_num), sub_add_cancel]

theorem rounds_shortest (tie : Tie) {s : Shape} {m : ℕ} (hm : 0 < m) (q : ℤ) :
    s.Rounds m q (shortest tie s m q).value := by
  rw [rounds_iff hm, value_shortest]
  exact between_search tie _ (lower_lt s hm q) (lt_upper m q) _

theorem digits_shortest_pos (tie : Tie) {s : Shape} {m : ℕ} (hm : 0 < m) (q : ℤ) :
    0 < (shortest tie s m q).digits := by
  have hvalue := (rounds_shortest tie (s := s) hm q).pos hm
  rcases Nat.eq_zero_or_pos (shortest tie s m q).digits with hzero | hpos
  · rw [value, hzero, Nat.cast_zero, zero_mul] at hvalue
    exact absurd hvalue (lt_irrefl 0)
  · exact hpos

end Scaled

end Marshal
