import Marshal.Proofs.Calendar.Clock
import Marshal.Proofs.Calendar.Spelling

/-!
Lengths of time read back from their texts. The text of a length is one of its spellings, with days
and the parts of a day in counts that are not zero, so that what a spelling is read as says what
comes back.
-/

namespace Marshal

namespace Duration

/-! ### The spelling that is written -/

namespace Digits

def ofNat (n : Nat) : Digits where
  chars := natChars n
  ne_nil := natChars_ne_nil n
  isDigit := fun _ => isDigit_of_mem_natChars

@[simp] theorem value_ofNat (n : Nat) : (ofNat n).value = n :=
  ofDigitChars_natChars n

end Digits

namespace Fraction

def ofNanos (nanos : Nat) : Fraction where
  digits := Clock.fractionChars nanos
  isDigit := fun _ => Clock.isDigit_of_mem_fractionChars

theorem nanos_ofNanos {nanos : Nat} (h : nanos < nanosPerSecond) :
    (ofNanos nanos).nanos = nanos := by
  have hle := Clock.length_fractionChars_le h
  have htake : (Clock.fractionChars nanos).take 9 = Clock.fractionChars nanos :=
    List.take_of_length_le hle
  have hvalue := Clock.nanosOfFraction_fractionChars h
  rw [Clock.nanosOfFraction, htake] at hvalue
  have hcut := ofDigitChars_take (ofNanos nanos).isDigit 9
  rw [ofNanos, htake] at hcut
  exact hcut.trans hvalue

end Fraction

def dayTerms (n : Nat) : List DateTerm :=
  if n = 0 then [] else [{ count := .ofNat n, unit := .day }]

def countTerms (n : Nat) (unit : TimeUnit) : List TimeTerm :=
  if n = 0 then [] else [.count (.ofNat n) unit false]

def secondsTerms (seconds nanos : Nat) : List TimeTerm :=
  if seconds = 0 ∧ nanos = 0 then []
  else [.seconds (.ofNat seconds) (if nanos = 0 then none else some (.ofNanos nanos)) false]

/-- The parts of a day, of a length of `nanos`. Nothing at all is written as no seconds. -/
def timeTerms (nanos : Nat) : List TimeTerm :=
  let s := nanos / nanosPerSecond
  if nanos = 0 then [.seconds (.ofNat 0) none false]
  else countTerms (s / 3600 % 24) .hour ++ countTerms (s / 60 % 60) .minute ++
    secondsTerms (s % 60) (nanos % nanosPerSecond)

theorem sum_dayTerms (n : Nat) :
    ((dayTerms n).map DateTerm.nanos).sum = n * 86400 * nanosPerSecond := by
  rw [dayTerms]
  split
  · rename_i h
    simp [h]
  · rw [List.map_singleton, List.sum_singleton, DateTerm.nanos, Digits.value_ofNat, DateUnit.days,
      Nat.mul_one]

theorem sum_countTerms (n : Nat) (unit : TimeUnit) :
    ((countTerms n unit).map TimeTerm.nanos).sum = n * unit.seconds * nanosPerSecond := by
  rw [countTerms]
  split
  · rename_i h
    simp [h]
  · rw [List.map_singleton, List.sum_singleton, TimeTerm.nanos, Digits.value_ofNat]

theorem sum_secondsTerms (seconds : Nat) {nanos : Nat} (h : nanos < nanosPerSecond) :
    ((secondsTerms seconds nanos).map TimeTerm.nanos).sum = seconds * nanosPerSecond + nanos := by
  rw [secondsTerms]
  split
  · rename_i hzero
    simp [hzero]
  · rw [List.map_singleton, List.sum_singleton]
    split
    · rename_i hzero
      rw [TimeTerm.nanos, Digits.value_ofNat, hzero, Nat.add_zero]
    · rw [TimeTerm.nanos, Digits.value_ofNat, Fraction.nanos_ofNanos h]

/-- The parts that are written add up to the length. -/
theorem sum_terms (nanos : Nat) :
    ((dayTerms (nanos / nanosPerSecond / 86400)).map DateTerm.nanos ++
      (timeTerms nanos).map TimeTerm.nanos).sum = nanos := by
  have hday (s : Nat) :
      s = s / 86400 * 86400 + (s / 3600 % 24 * 3600 + (s / 60 % 60 * 60 + s % 60)) := by
    omega
  rw [List.sum_append, sum_dayTerms, timeTerms]
  split
  · rename_i h
    rw [h]
    rfl
  · rw [List.map_append, List.map_append, List.sum_append, List.sum_append, sum_countTerms,
      sum_countTerms, sum_secondsTerms _ (Nat.mod_lt _ (by decide))]
    conv_rhs => rw [← Nat.div_add_mod' nanos nanosPerSecond, hday (nanos / nanosPerSecond)]
    simp only [Nat.add_mul, Nat.add_assoc, TimeUnit.seconds]

theorem terms_ne_nil (nanos : Nat) :
    dayTerms (nanos / nanosPerSecond / 86400) ≠ [] ∨ timeTerms nanos ≠ [] := by
  have hsum := sum_terms nanos
  by_contra hnil
  simp only [not_or, not_not] at hnil
  rw [hnil.1, hnil.2] at hsum
  -- Only a length of nothing has no parts, and of that the seconds are written.
  obtain rfl : 0 = nanos := hsum
  cases hnil.2

def written (d : Duration) : Spelling where
  sign := if d.nanos < 0 then .minus else .none
  dates := dayTerms (d.magnitude / nanosPerSecond / 86400)
  times := timeTerms d.magnitude
  ne_nil := terms_ne_nil _

theorem magnitude_le (d : Duration) : (d.magnitude : Int) ≤ longest.nanos := by
  have hlongest : longest.nanos = ((secondsLimit * nanosPerSecond - 1 : Nat) : Int) := rfl
  rw [hlongest, magnitude]
  exact Int.ofNat_le.mpr (Nat.min_le_right ..)

theorem sum_parts_written (d : Duration) : d.written.parts.sum = d.magnitude :=
  sum_terms d.magnitude

theorem magnitude_eq_zero_iff {d : Duration} : d.magnitude = 0 ↔ d.nanos = 0 := by
  have hlimit : 0 < secondsLimit * nanosPerSecond - 1 := by decide
  rw [magnitude]
  omega

theorem flatMap_dayTerms (n : Nat) :
    (dayTerms n).flatMap DateTerm.chars = countChars n 'D' := by
  rw [dayTerms, countChars]
  split
  · rfl
  · exact List.append_nil _

theorem flatMap_countTerms (n : Nat) (unit : TimeUnit) :
    (countTerms n unit).flatMap TimeTerm.chars = countChars n unit.letter := by
  rw [countTerms, countChars]
  split
  · rfl
  · exact List.append_nil _

theorem flatMap_secondsTerms (seconds nanos : Nat) :
    (secondsTerms seconds nanos).flatMap TimeTerm.chars = secondsChars seconds nanos := by
  rw [secondsTerms, secondsChars]
  split
  · rfl
  · rw [List.flatMap_singleton]
    split
    · rw [List.append_nil]
      rfl
    · rfl

/-- The text of a length is a spelling of it. -/
theorem chars_written (d : Duration) : d.written.chars = d.chars := by
  by_cases h0 : d.nanos = 0
  · obtain rfl : d = zero := by
      cases d
      cases h0
      rfl
    decide
  · have hmagnitude : d.magnitude ≠ 0 := mt magnitude_eq_zero_iff.mp h0
    have hsign : d.written.sign.chars = if d.nanos < 0 then ['-'] else [] := by
      rw [written]
      split <;> rfl
    have hdates : d.written.dates.flatMap DateTerm.chars =
        countChars (d.magnitude / nanosPerSecond / 86400) 'D' := flatMap_dayTerms _
    have htimes : d.written.times.flatMap TimeTerm.chars =
        countChars (d.magnitude / nanosPerSecond / 3600 % 24) 'H' ++
          countChars (d.magnitude / nanosPerSecond / 60 % 60) 'M' ++
          secondsChars (d.magnitude / nanosPerSecond % 60) (d.magnitude % nanosPerSecond) := by
      show (timeTerms d.magnitude).flatMap TimeTerm.chars = _
      rw [timeTerms, if_neg hmagnitude, List.flatMap_append, List.flatMap_append,
        flatMap_countTerms, flatMap_countTerms, flatMap_secondsTerms]
      rfl
    rw [Spelling.chars, Spelling.timeChars_eq, hsign, hdates, htimes, chars, if_neg h0]
    simp only [List.append_assoc, List.cons_append]
    rfl

theorem solid_chars (d : Duration) : Text.Solid d.chars :=
  d.chars_written ▸ d.written.solid_chars

/-! ### Reading the text -/

theorem ofString?_text_eq (d : Duration) : ofString? d.text = of? d.written.nanos := by
  have hchars : Text.trimChars d.text.toList = d.written.chars := by
    rw [text, String.toList_ofList, Text.trimChars_of_solid d.solid_chars, d.chars_written]
  have hrange : inRange? d.magnitude = some d.magnitude :=
    if_pos (lt_iff_le_longest.mpr d.magnitude_le)
  rw [ofString?_of_spelling hchars, sum_parts_written, hrange, Option.bind_some, Spelling.nanos,
    sum_parts_written]

theorem of?_eq (d : Duration) : of? d.nanos = some d := by
  rw [of?, dif_pos d.isDuration]

theorem nanos_written (d : Duration) :
    d.written.nanos = if d.nanos < 0 then -(d.magnitude : Int) else d.magnitude := by
  rw [Spelling.nanos, sum_parts_written, written]
  split <;> rfl

/-- Only the longest negative durations are out of range for their texts. -/
theorem natAbs_lt {d : Duration} (h : d.seconds ≠ -(secondsLimit : Int)) :
    d.nanos.natAbs < secondsLimit * nanosPerSecond := by
  obtain ⟨hlo, hhi⟩ := d.isDuration
  by_contra hle
  -- Only below zero is there room for a magnitude that large, and its whole seconds are the limit.
  have hneg : d.nanos = -(d.nanos.natAbs : Int) := by omega
  have hwhole : d.nanos.natAbs / nanosPerSecond = secondsLimit :=
    Nat.div_eq_of_lt_le (by omega) (by omega)
  refine h ?_
  rw [seconds, hneg, Int.neg_tdiv, ← Int.ofNat_tdiv, hwhole]

theorem seconds_ne_of_natAbs_lt {d : Duration}
    (h : d.nanos.natAbs < secondsLimit * nanosPerSecond) : d.seconds ≠ -(secondsLimit : Int) := by
  intro hseconds
  have hwhole : d.seconds.natAbs < secondsLimit := by
    rw [seconds, Int.natAbs_tdiv, Int.natAbs_natCast]
    exact Nat.div_lt_of_lt_mul (by rwa [Nat.mul_comm])
  rw [hseconds, Int.natAbs_neg, Int.natAbs_natCast] at hwhole
  exact Nat.lt_irrefl _ hwhole

theorem nanos_written_of_ne {d : Duration} (h : d.seconds ≠ -(secondsLimit : Int)) :
    d.written.nanos = d.nanos := by
  have hlt := natAbs_lt h
  rw [nanos_written, magnitude]
  omega

/-- Every duration comes back from its text but those of the lowest number of seconds. -/
theorem ofString?_text {d : Duration} (h : d.seconds ≠ -(secondsLimit : Int)) :
    ofString? d.text = some d := by
  rw [ofString?_text_eq, nanos_written_of_ne h, of?_eq]

/-- As long as the longest duration, and negative. Some lengths are below it. -/
def longestNegative : Duration where
  nanos := -longest.nanos

theorem nanos_written_of_lowest {d : Duration} (h : d.seconds = -(secondsLimit : Int)) :
    d.written.nanos = longestNegative.nanos := by
  have hle : secondsLimit * nanosPerSecond ≤ d.nanos.natAbs :=
    Nat.le_of_not_lt fun hlt => seconds_ne_of_natAbs_lt hlt h
  have hneg : d.nanos < 0 := by
    have hhi := d.isDuration.2
    omega
  have hlongest : longestNegative.nanos = -((secondsLimit * nanosPerSecond - 1 : Nat) : Int) := rfl
  rw [nanos_written, if_pos hneg, hlongest, magnitude, Nat.min_eq_right (by omega)]

/-- Every duration comes back from its text, but those of the lowest number of seconds come back as
the longest negative one that has a text; and no step of the reading overflows. -/
theorem ofString?_text_saturated (d : Duration) :
    ofString? d.text = some (if d.seconds = -(secondsLimit : Int) then longestNegative else d) ∧
      d.text = String.ofList d.written.chars ∧ d.written.Fits := by
  refine ⟨?_, ?_, ?_⟩
  · split
    · rename_i h
      rw [ofString?_text_eq, nanos_written_of_lowest h, of?_eq]
    · rename_i h
      exact ofString?_text h
  · rw [text, chars_written]
  · rw [Spelling.fits_iff, sum_parts_written, lt_iff_le_longest]
    exact d.magnitude_le

/-! ### Lengths that are read -/

theorem body?_lt {cs : List Char} {n : Nat} (h : body? cs = some n) :
    n < secondsLimit * nanosPerSecond := by
  have htotal : ∀ {parts : List Nat},
      ((guard (!parts.isEmpty) : Option Unit).bind fun _ => total? parts) = some n →
        n < secondsLimit * nanosPerSecond := by
    intro parts h
    obtain ⟨-, -, h⟩ := Option.bind_eq_some_iff.mp h
    rw [total?_eq, inRange?] at h
    split_ifs at h with hlt
    exact Option.some.inj h ▸ hlt
  rw [body?] at h
  obtain ⟨dates, -, h⟩ := Option.bind_eq_some_iff.mp h
  split at h
  · exact htotal h
  · cases h
  · obtain ⟨times, -, h⟩ := Option.bind_eq_some_iff.mp h
    exact htotal h

theorem signed?_natAbs_lt {negative : Bool} {cs : List Char} {d : Duration}
    (h : signed? negative cs = some d) : d.nanos.natAbs < secondsLimit * nanosPerSecond := by
  have hbody : ∀ cs, ((body? cs).bind fun n => of? (if negative then -n else n)) = some d →
      d.nanos.natAbs < secondsLimit * nanosPerSecond := by
    intro cs h
    obtain ⟨n, hn, hof⟩ := Option.bind_eq_some_iff.mp h
    have hlt := body?_lt hn
    rw [of?] at hof
    split_ifs at hof with hneg
    · cases hof
      rwa [Int.natAbs_neg, Int.natAbs_natCast]
    · cases hof
      rwa [Int.natAbs_natCast]
  rw [signed?.eq_def] at h
  split at h
  · exact hbody _ h
  · exact hbody _ h
  · cases h

/-- No text is read as a duration of the lowest number of seconds, so what is read has a text. -/
theorem seconds_ne_of_ofString? {s : String} {d : Duration} (h : ofString? s = some d) :
    d.seconds ≠ -(secondsLimit : Int) := by
  apply seconds_ne_of_natAbs_lt
  rw [ofString?, ofChars?.eq_def] at h
  split at h <;> exact signed?_natAbs_lt h

end Duration

end Marshal
