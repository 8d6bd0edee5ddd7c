import Marshal.Calendar.Date
import Marshal.Proofs.Number.Digits

/-!
Days read back from their texts.
-/

namespace Marshal

namespace Text

theorem sign?_of_isDigit {c : Char} (h : c.isDigit = true) (cs : List Char) :
    sign? (c :: cs) = none := by
  rw [sign?]
  · exact fun _ => cons_ne_of_isDigit h rfl _ _
  · exact fun _ => cons_ne_of_isDigit h rfl _ _

theorem sign?_paddedChars (width n : Nat) (cs : List Char) :
    sign? (paddedChars width n ++ cs) = none := by
  cases hp : paddedChars width n with
  | nil => exact absurd (List.append_eq_nil_iff.mp hp).2 (natChars_ne_nil n)
  | cons c ds =>
      have hc : c ∈ paddedChars width n := by simp [hp]
      exact sign?_of_isDigit (isDigit_of_mem_paddedChars hc) _

end Text

namespace Date

theorem of?_eq (d : Date) : of? d.year d.month d.day = some d := by
  rw [of?, dif_pos d.isDate]

theorem natAbs_year_lt (d : Date) : d.year.natAbs < 10 ^ 4 := by
  obtain ⟨hlo, hhi, -⟩ := d.isDate
  omega

theorem month_lt (d : Date) : d.month < 10 ^ 2 := by
  obtain ⟨-, -, -, hm, -⟩ := d.isDate
  omega

theorem monthLength_le (year : Int) (month : Nat) : monthLength year month ≤ 31 := by
  have hleap : (if isLeapYear year then 29 else 28) ≤ 31 := by split <;> decide
  unfold monthLength
  split <;> first | exact hleap | decide

theorem day_lt (d : Date) : d.day < 10 ^ 2 := by
  obtain ⟨-, -, -, -, -, hd⟩ := d.isDate
  have := monthLength_le d.year d.month
  omega

theorem digits?_month (d : Date) (cs : List Char) :
    Text.digits? 2 (paddedChars 2 d.month ++ cs) = some (d.month, cs) :=
  Text.digits?_paddedChars (by decide) d.month_lt cs

theorem digits?_day (d : Date) (cs : List Char) :
    Text.digits? 2 (paddedChars 2 d.day ++ cs) = some (d.day, cs) :=
  Text.digits?_paddedChars (by decide) d.day_lt cs

theorem takeYear?_yearChars (d : Date) (cs : List Char) :
    takeYear? (yearChars d.year ++ cs) = some (d.year, cs) := by
  have hdigits := Text.digits?_paddedChars (by decide) d.natAbs_year_lt cs
  by_cases hneg : d.year < 0
  · have hyear : -(d.year.natAbs : Int) = d.year := by omega
    have hnegate : Text.negateIf true d.year.natAbs = d.year := hyear
    rw [yearChars, if_pos hneg]
    simp [takeYear?, Text.sign?, hdigits, hnegate]
  · have hyear : (d.year.natAbs : Int) = d.year := by omega
    simp [yearChars, hneg, takeYear?, Text.sign?_paddedChars, hdigits, hyear]

/-- A date is taken off the front of whatever follows. -/
theorem take?_chars (d : Date) (cs : List Char) : take? (d.chars ++ cs) = some (d, cs) := by
  simp only [take?, chars, List.append_assoc, List.cons_append, takeYear?_yearChars, digits?_month,
    digits?_day, Text.char?_cons, Option.bind_eq_bind, Option.bind_some, of?_eq]
  rfl

theorem solid_yearChars (year : Int) : Text.Solid (yearChars year) := by
  rw [yearChars, Text.solid_append]
  refine ⟨?_, solid_paddedChars 4 _⟩
  split
  · exact Text.solid_cons.mpr ⟨by decide, Text.solid_nil⟩
  · exact Text.solid_nil

theorem solid_chars (d : Date) : Text.Solid d.chars := by
  have hhyphen : Text.isBlank '-' = false := by decide
  simp [chars, hhyphen, solid_yearChars]

/-- Every day comes back from its text. -/
theorem ofString?_text (d : Date) : ofString? d.text = some d := by
  have htake := d.take?_chars []
  rw [List.append_nil] at htake
  rw [ofString?, text, String.toList_ofList, Text.trimChars_of_solid d.solid_chars, ofChars?, htake]

end Date

end Marshal
