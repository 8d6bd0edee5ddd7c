import Mathlib.Data.List.TakeWhile
import Mathlib.Data.Option.Basic
import Marshal.Calendar.Clock
import Marshal.Proofs.Number.Digits

/-!
Times of day read back from their texts.
-/

namespace Marshal

namespace Clock

/-- What stands after the last zero that is taken off, and the zeros. -/
theorem fractionChars_append_zeros (nanos : Nat) :
    ∃ k, paddedChars 9 nanos = fractionChars nanos ++ List.replicate k '0' := by
  have hsplit := List.takeWhile_append_dropWhile
    (p := (· == '0')) (l := (paddedChars 9 nanos).reverse)
  have hzeros : ∀ c ∈ (paddedChars 9 nanos).reverse.takeWhile (· == '0'), c = '0' :=
    fun c hc => by simpa using List.mem_takeWhile_imp hc
  -- Zeros are taken off from behind, so both sides are compared from behind.
  refine ⟨((paddedChars 9 nanos).reverse.takeWhile (· == '0')).length, ?_⟩
  rw [← List.reverse_inj, List.reverse_append, List.reverse_replicate, fractionChars,
    List.reverse_reverse, ← List.eq_replicate_of_mem hzeros, hsplit]

theorem isDigit_of_mem_fractionChars {nanos : Nat} {c : Char} (h : c ∈ fractionChars nanos) :
    c.isDigit = true := by
  obtain ⟨k, hk⟩ := fractionChars_append_zeros nanos
  have hc : c ∈ paddedChars 9 nanos := by simp [hk, h]
  exact isDigit_of_mem_paddedChars hc

theorem length_fractionChars_le {nanos : Nat} (h : nanos < nanosPerSecond) :
    (fractionChars nanos).length ≤ 9 := by
  obtain ⟨k, hk⟩ := fractionChars_append_zeros nanos
  have hlen := congrArg List.length hk
  rw [length_paddedChars (by decide) (by simpa using h), List.length_append] at hlen
  omega

theorem nanosOfFraction_fractionChars {nanos : Nat} (h : nanos < nanosPerSecond) :
    nanosOfFraction (fractionChars nanos) = nanos := by
  obtain ⟨k, hk⟩ := fractionChars_append_zeros nanos
  have hle := length_fractionChars_le h
  have hlen := congrArg List.length hk
  have hvalue := congrArg (fun ds => Nat.ofDigitChars 10 ds 0) hk
  rw [length_paddedChars (by decide) (by simpa using h), List.length_append,
    List.length_replicate] at hlen
  simp only [ofDigitChars_paddedChars, Nat.ofDigitChars_append,
    Nat.ofDigitChars_replicate_zero] at hvalue
  have hk' : 9 - (fractionChars nanos).length = k := by omega
  rw [nanosOfFraction, List.take_of_length_le hle, hk', Nat.mul_comm]
  exact hvalue.symm

theorem fractionChars_ne_nil {nanos : Nat} (h : nanos < nanosPerSecond) (h0 : nanos ≠ 0) :
    fractionChars nanos ≠ [] := by
  intro hnil
  have hvalue := nanosOfFraction_fractionChars h
  rw [hnil] at hvalue
  exact h0 hvalue.symm

theorem of?_eq (t : Clock) : of? t.hour t.minute t.second t.nanosecond = some t := by
  rw [of?, dif_pos ⟨t.hour_lt, t.minute_lt, t.second_lt, t.nanosecond_lt⟩]

def secondChars (t : Clock) : List Char :=
  paddedChars 2 t.hour ++ ':' :: paddedChars 2 t.minute ++ ':' :: paddedChars 2 t.second

def pointChars (t : Clock) : List Char :=
  if t.nanosecond = 0 then [] else '.' :: fractionChars t.nanosecond

theorem chars_eq (t : Clock) : t.chars = t.secondChars ++ t.pointChars := rfl

section Take

variable {α : Type} (t : Clock) (cs : List Char)

theorem digits?_hour : Text.digits? 2 (paddedChars 2 t.hour ++ cs) = some (t.hour, cs) :=
  Text.digits?_paddedChars (by decide) (Nat.lt_of_lt_of_le t.hour_lt (by decide)) cs

theorem digits?_minute : Text.digits? 2 (paddedChars 2 t.minute ++ cs) = some (t.minute, cs) :=
  Text.digits?_paddedChars (by decide) (Nat.lt_of_lt_of_le t.minute_lt (by decide)) cs

theorem digits?_second : Text.digits? 2 (paddedChars 2 t.second ++ cs) = some (t.second, cs) :=
  Text.digits?_paddedChars (by decide) (Nat.lt_of_lt_of_le t.second_lt (by decide)) cs

end Take

/-- The fraction is taken off up to a character that is no digit. -/
theorem someDigits?_fractionChars (t : Clock) (h : t.nanosecond ≠ 0) {cs : List Char}
    (hcs : Text.NoDigit cs) :
    Text.someDigits? (fractionChars t.nanosecond ++ cs) = some (fractionChars t.nanosecond, cs) :=
  Text.someDigits?_append (fractionChars_ne_nil t.nanosecond_lt h)
    (fun _ => isDigit_of_mem_fractionChars) hcs

/-- Text without a fraction. -/
theorem toSecond?_secondChars (t : Clock) (h : t.nanosecond = 0) :
    toSecond? t.secondChars = some t := by
  have hof := t.of?_eq
  rw [h] at hof
  have hend := Text.digits?_paddedChars_end (by decide : 0 < 2)
    (Nat.lt_of_lt_of_le t.second_lt (by decide))
  simp only [toSecond?, secondChars, List.append_assoc, List.cons_append, digits?_hour,
    digits?_minute, hend, Text.char?_cons, Option.bind_eq_bind, Option.bind_some]
  exact hof

theorem withFraction?_chars (t : Clock) (h : t.nanosecond ≠ 0) :
    withFraction? t.chars = some t := by
  have hend := t.someDigits?_fractionChars h Text.noDigit_nil
  rw [List.append_nil] at hend
  have hguard : (fractionChars t.nanosecond).length ≤ fractionLimit ∧ ([] : List Char).isEmpty :=
    ⟨Nat.le_trans (length_fractionChars_le t.nanosecond_lt) (by decide), rfl⟩
  simp only [withFraction?, chars_eq, secondChars, pointChars, if_neg h, List.append_assoc,
    List.cons_append, digits?_hour, digits?_minute, digits?_second, hend, Text.char?_cons,
    Option.bind_eq_bind, Option.bind_some, nanosOfFraction_fractionChars t.nanosecond_lt,
    guard, if_pos hguard]
  exact t.of?_eq

/-- A fraction that has to be there is missed. -/
theorem withFraction?_secondChars (t : Clock) : withFraction? t.secondChars = none := by
  have hend := Text.digits?_paddedChars_end (by decide : 0 < 2)
    (Nat.lt_of_lt_of_le t.second_lt (by decide))
  simp only [withFraction?, secondChars, List.append_assoc, List.cons_append, digits?_hour,
    digits?_minute, hend, Text.char?_cons, Option.bind_eq_bind, Option.bind_some]
  rfl

theorem ofChars?_chars (t : Clock) : ofChars? t.chars = some t := by
  by_cases h : t.nanosecond = 0
  · rw [chars_eq, pointChars, if_pos h, List.append_nil, ofChars?, withFraction?_secondChars,
      toSecond?_secondChars t h]
    rfl
  · rw [ofChars?, withFraction?_chars t h]
    rfl

theorem solid_chars (t : Clock) : Text.Solid t.chars := by
  have hpoint : Text.Solid t.pointChars := by
    rw [pointChars]
    split
    · exact Text.solid_nil
    · exact Text.solid_cons.mpr
        ⟨by decide, Text.solid_of_isDigit fun _ => isDigit_of_mem_fractionChars⟩
  have hcolon : Text.isBlank ':' = false := by decide
  rw [chars_eq, Text.solid_append]
  exact ⟨by simp [secondChars, hcolon], hpoint⟩

/-- Every time of day comes back from its text. -/
theorem ofString?_text (t : Clock) : ofString? t.text = some t := by
  rw [ofString?, text, String.toList_ofList, Text.trimChars_of_solid t.solid_chars,
    ofChars?_chars]

end Clock

end Marshal
