import Marshal.Decimal
import Marshal.Proofs.Number.Digits

/-!
Decimals read back from their texts, and the same numbers at their least scales.
-/

namespace Marshal.Decimal

/-! ### Scanning digits -/

theorem le_ofDigitChars (ds : List Char) (m : Nat) : m ≤ Nat.ofDigitChars 10 ds m := by
  induction ds generalizing m with
  | nil => simp
  | cons c ds ih =>
      rw [Nat.ofDigitChars_cons]
      have := ih (10 * m + (c.toNat - '0'.toNat))
      omega

/-- Digits that fit are all taken, and those after the point are counted. -/
theorem scan_append {ds : List Char} (hd : ∀ c ∈ ds, c.isDigit = true) {m s : Nat}
    (hfits : Nat.ofDigitChars 10 ds m < decimalLimit) (pointed started : Bool)
    (hs : pointed = true → s + ds.length ≤ 28) (cs : List Char) :
    scan m s pointed started (ds ++ cs) =
      scan (Nat.ofDigitChars 10 ds m) (if pointed then s + ds.length else s) pointed
        (started || !ds.isEmpty) cs := by
  induction ds generalizing m s started with
  | nil => cases pointed <;> simp
  | cons c ds ih =>
      -- The mantissa never shrinks, so it is below the limit all along if it is in the end.
      have hnext : 10 * m + (c.toNat - '0'.toNat) = m * 10 + (c.toNat - '0'.toNat) := by omega
      rw [Nat.ofDigitChars_cons, hnext] at hfits ⊢
      have hlt := Nat.lt_of_le_of_lt (le_ofDigitChars ds _) hfits
      have hplaces : (pointed && decide (28 ≤ s)) = false := by
        cases pointed with
        | false => rfl
        | true =>
            have := hs rfl
            rw [List.length_cons] at this
            simp
            omega
      rw [List.cons_append, scan, if_pos (hd c (by simp))]
      simp only [hplaces, Bool.false_eq_true, if_false, if_pos hlt]
      rw [ih (fun c hc => hd c (by simp [hc])) hfits]
      · cases pointed <;> simp [Nat.add_assoc, Nat.add_comm 1]
      · rintro rfl
        have := hs rfl
        rw [List.length_cons] at this
        simp
        omega

/-! ### Texts -/

def wholeChars (d : Decimal) : List Char :=
  (paddedChars (d.scale + 1) d.mantissa).take
    ((paddedChars (d.scale + 1) d.mantissa).length - d.scale)

def placeChars (d : Decimal) : List Char :=
  (paddedChars (d.scale + 1) d.mantissa).drop
    ((paddedChars (d.scale + 1) d.mantissa).length - d.scale)

theorem wholeChars_append_placeChars (d : Decimal) :
    d.wholeChars ++ d.placeChars = paddedChars (d.scale + 1) d.mantissa :=
  List.take_append_drop ..

theorem scale_lt_length (d : Decimal) :
    d.scale < (paddedChars (d.scale + 1) d.mantissa).length := by
  rw [paddedChars, List.length_append, List.length_replicate]
  omega

theorem length_placeChars (d : Decimal) : d.placeChars.length = d.scale := by
  have := d.scale_lt_length
  rw [placeChars, List.length_drop]
  omega

theorem wholeChars_ne_nil (d : Decimal) : d.wholeChars ≠ [] := by
  have := d.scale_lt_length
  intro hnil
  have hlen := congrArg List.length hnil
  rw [wholeChars, List.length_take, List.length_nil] at hlen
  omega

theorem isDigit_of_mem_wholeChars {d : Decimal} {c : Char} (h : c ∈ d.wholeChars) :
    c.isDigit = true :=
  isDigit_of_mem_paddedChars (List.mem_of_mem_take h)

theorem isDigit_of_mem_placeChars {d : Decimal} {c : Char} (h : c ∈ d.placeChars) :
    c.isDigit = true :=
  isDigit_of_mem_paddedChars (List.mem_of_mem_drop h)

theorem ofDigitChars_parts (d : Decimal) :
    Nat.ofDigitChars 10 d.placeChars (Nat.ofDigitChars 10 d.wholeChars 0) = d.mantissa := by
  rw [← Nat.ofDigitChars_append, wholeChars_append_placeChars, ofDigitChars_paddedChars]

def bodyChars (d : Decimal) : List Char :=
  d.wholeChars ++ (if d.scale = 0 then [] else '.' :: d.placeChars)

theorem chars_eq (d : Decimal) : d.chars = (if d.negative then ['-'] else []) ++ d.bodyChars := by
  simp only [chars, bodyChars, wholeChars, placeChars, List.append_assoc]

theorem scan_bodyChars (d : Decimal) :
    scan 0 0 false false d.bodyChars = some (d.mantissa, d.scale) := by
  have hvalue := d.ofDigitChars_parts
  have hwhole : Nat.ofDigitChars 10 d.wholeChars 0 ≤ d.mantissa := by
    rw [← hvalue]
    exact le_ofDigitChars ..
  have hstarted : (!d.wholeChars.isEmpty) = true := by simp [d.wholeChars_ne_nil]
  rw [bodyChars, scan_append (fun _ => isDigit_of_mem_wholeChars)
    (Nat.lt_of_le_of_lt hwhole d.mantissa_lt) false false (by simp), hstarted]
  by_cases h : d.scale = 0
  · have hnone : d.placeChars = [] := List.eq_nil_of_length_eq_zero (d.length_placeChars.trans h)
    rw [hnone, Nat.ofDigitChars_nil] at hvalue
    simp [h, scan, hvalue]
  · have hplaces := scan_append (m := Nat.ofDigitChars 10 d.wholeChars 0) (s := 0)
      (fun _ => isDigit_of_mem_placeChars (d := d)) (by rw [hvalue]; exact d.mantissa_lt) true true
      (by simp [length_placeChars, d.scale_le]) []
    have hpoint : '.'.isDigit = false := by decide
    rw [List.append_nil, hvalue, length_placeChars] at hplaces
    simp [h, scan, hpoint] at hplaces ⊢
    exact hplaces

theorem head_bodyChars (d : Decimal) : ∃ c cs, d.bodyChars = c :: cs ∧ c.isDigit = true := by
  cases h : d.wholeChars with
  | nil => exact absurd h d.wholeChars_ne_nil
  | cons c cs =>
      refine ⟨c, _, by rw [bodyChars, h, List.cons_append], ?_⟩
      exact isDigit_of_mem_wholeChars (d := d) (by simp [h])

theorem of?_eq (d : Decimal) : of? d.negative d.mantissa d.scale = some d := by
  rw [of?, dif_pos ⟨d.mantissa_lt, d.scale_le⟩]

/-- A zero may not have a sign: it would be lost. -/
def Signless (d : Decimal) : Prop :=
  d.negative = true → d.mantissa ≠ 0

theorem signed?_bodyChars {d : Decimal} (h : d.Signless) :
    signed? d.negative d.bodyChars = some d := by
  have hsign : (d.negative && d.mantissa != 0) = d.negative := by
    cases hn : d.negative with
    | false => rfl
    | true => simp [h hn]
  simp only [signed?, scan_bodyChars, Option.bind_some, hsign, of?_eq]

theorem ofPlain?_chars {d : Decimal} (h : d.Signless) : ofPlain? d.chars = some d := by
  have hread := signed?_bodyChars h
  rw [chars_eq]
  cases hn : d.negative with
  | true =>
      rw [hn] at hread
      rw [if_pos rfl]
      exact hread
  | false =>
      rw [hn] at hread
      rw [if_neg Bool.false_ne_true, List.nil_append]
      obtain ⟨c, cs, hc, hdigit⟩ := d.head_bodyChars
      rw [hc] at hread ⊢
      rw [ofPlain?]
      · exact hread
      · exact fun _ => cons_ne_of_isDigit hdigit rfl _ _
      · exact fun _ => cons_ne_of_isDigit hdigit rfl _ _

theorem solid_chars (d : Decimal) : Text.Solid d.chars := by
  have hwhole : Text.Solid d.wholeChars := Text.solid_of_isDigit fun _ => isDigit_of_mem_wholeChars
  have hplaces : Text.Solid d.placeChars :=
    Text.solid_of_isDigit fun _ => isDigit_of_mem_placeChars
  rw [chars_eq, bodyChars]
  refine Text.solid_append.mpr ⟨?_, Text.solid_append.mpr ⟨hwhole, ?_⟩⟩
  · split <;> decide
  · split
    · exact Text.solid_nil
    · exact Text.solid_cons.mpr ⟨by decide, hplaces⟩

theorem ofChars?_chars {d : Decimal} (h : d.Signless) : ofChars? d.chars = some d := by
  rw [ofChars?, ofPlain?_chars h]
  rfl

/-- Only the sign of a zero may be lost. -/
theorem exists_ofChars?_chars (d : Decimal) :
    ∃ d', ofChars? d.chars = some d' ∧ d'.units = d.units := by
  by_cases h : d.Signless
  · exact ⟨d, ofChars?_chars h, rfl⟩
  · obtain ⟨hneg, hzero⟩ : d.negative = true ∧ d.mantissa = 0 := by
      simpa [Signless] using h
    have hread : signed? true d.bodyChars = some { d with negative := false } := by
      have hof := of?_eq { d with negative := false }
      simp only [signed?, scan_bodyChars, Option.bind_some, hzero] at hof ⊢
      exact hof
    refine ⟨{ d with negative := false }, ?_, ?_⟩
    · rw [ofChars?, chars_eq, if_pos hneg]
      show (signed? true d.bodyChars <|> _) = _
      rw [hread]
      rfl
    · simp [units, hzero]

/-! ### The least scale -/

theorem stripZeros_ne_zero {m s : Nat} (h : m ≠ 0) : (stripZeros m s).1 ≠ 0 := by
  induction s generalizing m with
  | zero => exact h
  | succ s ih =>
      rw [stripZeros]
      split
      · exact ih (by omega)
      · exact h

theorem stripZeros_units {m s : Nat} (h : s ≤ 28) :
    (stripZeros m s).1 * 10 ^ (28 - (stripZeros m s).2) = m * 10 ^ (28 - s) := by
  induction s generalizing m with
  | zero => rfl
  | succ s ih =>
      rw [stripZeros]
      split
      · -- A last zero goes, and the unit grows by the factor that the mantissa lost.
        rename_i hm
        have hexp : 28 - s = 28 - (s + 1) + 1 := by omega
        have hten : m / 10 * 10 = m := by omega
        rw [ih (by omega), hexp, Nat.pow_succ', ← Nat.mul_assoc, hten]
      · rfl

theorem normalize_signless (d : Decimal) : d.normalize.Signless := by
  intro h
  simp only [normalize, Bool.and_eq_true, bne_iff_ne] at h
  exact stripZeros_ne_zero h.2

/-- What is written of a decimal is the same number. -/
theorem units_normalize (d : Decimal) : d.normalize.units = d.units := by
  have hunits : d.normalize.mantissa * Nat.pow 10 (28 - d.normalize.scale) =
      d.mantissa * Nat.pow 10 (28 - d.scale) := stripZeros_units d.scale_le
  have hsign : d.normalize.negative = (d.negative && d.mantissa != 0) := rfl
  rw [units, units, hunits, hsign]
  by_cases h : d.mantissa = 0 <;> simp [h]

end Marshal.Decimal
