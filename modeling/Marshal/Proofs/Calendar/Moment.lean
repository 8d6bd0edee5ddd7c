import Marshal.Proofs.Calendar.DateTime

/-!
Texts of days, times of day and moments, each read back as what it was written from. The readers of
moments are tried in turn; a text that has lost the letter for UTC at its end is refused by those
that ask for an offset, and is left to the one that does not.
-/

namespace Marshal

/-! ### The text of a moment -/

namespace DateTime

theorem hasText_iff {t : DateTime} :
    t.HasText ↔ 0 ≤ t.date.year ∧ 60 ∣ t.offset ∧ t.offset.natAbs / 3600 < 24 := by
  constructor
  · rintro ⟨hyear, hday, hminutes⟩
    omega
  · rintro ⟨hyear, hminutes, hhours⟩
    exact ⟨hyear, by omega, by omega⟩

end DateTime

/-! ### Readers that ask for an offset -/

namespace Iso8601

theorem date?_chars {d : Date} (h : 0 ≤ d.year) (cs : List Char) :
    date? (d.chars ++ cs) = some (d, true, cs) := by
  have hyear (cs : List Char) : year? (Date.yearChars d.year ++ cs) = some (d.year, cs) := by
    have habs : (d.year.natAbs : Int) = d.year := by omega
    rw [Date.yearChars, if_neg (Int.not_lt.mpr h), List.nil_append, year?, Text.sign?_paddedChars]
    simp only [Text.digits?_paddedChars (by decide) d.natAbs_year_lt, Option.map_some, habs]
  have hday : monthDay? true (paddedChars 2 d.month ++ '-' :: (paddedChars 2 d.day ++ cs)) =
      some (.inMonth d.month d.day, cs) := by
    obtain ⟨-, -, hlo, hhi, hpos, -⟩ := d.isDate
    have hne : d.day ≠ 0 := by omega
    simp only [monthDay?, separator?, if_true, Date.digits?_month, Date.digits?_day,
      Text.char?_cons, Option.bind_eq_bind, Option.bind_some, guard, if_pos (And.intro hlo hhi),
      if_pos hne]
    rfl
  simp only [date?, Date.chars, List.append_assoc, List.cons_append, hyear, hday,
    Option.bind_eq_bind, Option.bind_some, Day.date?]
  show (Date.of? d.year d.month d.day).bind _ = _
  rw [Date.of?_eq]
  rfl

/-- The number before a colon has no fraction. -/
theorem part?_paddedChars {n : Nat} (h : n < 100) (cs : List Char) :
    part? (paddedChars 2 n ++ ':' :: cs) = some (n, none, ':' :: cs) := by
  rw [part?, Text.digits?_paddedChars (by decide) h]
  rfl

/-- The whole text is taken, with a fraction or without. -/
theorem exists_seconds?_eq (c : Clock) (hour minute : Nat) :
    ∃ parts, seconds? true hour minute (paddedChars 2 c.second ++ c.pointChars) =
      some (parts, []) := by
  by_cases h : c.nanosecond = 0
  · refine ⟨(hour, minute, c.second, 0), ?_⟩
    rw [Clock.pointChars, if_pos h, seconds?, part?, Clock.digits?_second]
    rfl
  · have hdigits := c.someDigits?_fractionChars h Text.noDigit_nil
    rw [List.append_nil] at hdigits
    refine ⟨secondParts hour minute c.second (fraction (Clock.fractionChars c.nanosecond)), ?_⟩
    rw [Clock.pointChars, if_neg h, seconds?, part?, Clock.digits?_second]
    simp only [Option.bind_eq_bind, Option.bind_some, hdigits]
    rfl

theorem exists_time?_eq (c : Clock) : ∃ parts, time? true c.chars = some (parts, []) := by
  obtain ⟨parts, hparts⟩ := exists_seconds?_eq c c.hour c.minute
  have hhour : c.hour < 100 := Nat.lt_trans c.hour_lt (by decide)
  have hminute : c.minute < 100 := Nat.lt_trans c.minute_lt (by decide)
  refine ⟨parts, ?_⟩
  rw [Clock.chars_eq, Clock.secondChars]
  simp only [List.append_assoc, List.cons_append, time?, part?_paddedChars hhour, minutes?,
    part?_paddedChars hminute, Option.bind_eq_bind, Option.bind_some, if_true]
  exact hparts

theorem ofChars?_localChars {t : DateTime} (h : 0 ≤ t.date.year) :
    ofChars? t.localChars = none := by
  obtain ⟨parts, hparts⟩ := exists_time?_eq t.clock
  have hoffset : offset? true [] = none := rfl
  simp only [ofChars?, DateTime.localChars, date?_chars h, Text.char?_cons, hparts, hoffset,
    Option.bind_eq_bind, Option.bind_some, Option.bind_none]

end Iso8601

namespace DateTime

/-! ### Moments of UTC -/

variable {t : DateTime}

theorem ofLocal?_localChars (h : t.offset = 0) : ofLocal? t.localChars = some t := by
  have hclock : (Clock.withFraction? t.clock.chars <|> Clock.toSecond? t.clock.chars) =
      some t.clock := by
    by_cases hnanos : t.clock.nanosecond = 0
    · rw [Clock.chars_eq, Clock.pointChars, if_pos hnanos, List.append_nil,
        Clock.withFraction?_secondChars, Clock.toSecond?_secondChars _ hnanos]
      rfl
    · rw [Clock.withFraction?_chars _ hnanos]
      rfl
  have hof : of? t.date t.clock 0 = some t := by
    rw [← h, of?, dif_pos t.isOffset]
  simp only [ofLocal?, localChars, Date.take?_chars, Text.char?_cons, hclock, Option.bind_eq_bind,
    Option.bind_some, hof]

theorem solid_localChars (t : DateTime) : Text.Solid t.localChars := by
  have hletter : Text.isBlank 'T' = false := by decide
  simp [localChars, hletter, Date.solid_chars, Clock.solid_chars]

/-- A moment of UTC without the letter for it: the readers that ask for an offset refuse it, and the
last one reads it. -/
theorem ofString?_localChars (hyear : 0 ≤ t.date.year) (h : t.offset = 0) :
    ofString? (String.ofList t.localChars) = some t := by
  rw [ofString?, String.toList_ofList, Text.trimChars_of_solid t.solid_localChars, ofChars?,
    Rfc3339.ofChars?_localChars hyear, Iso8601.ofChars?_localChars hyear, ofLocal?_localChars h]
  rfl

end DateTime

namespace Calendar

/-- Days and times of day come back from their texts. A moment has a text just if its year is not
below zero and its offset has whole minutes and less than 24 hours, and it comes back from that as
it was; if it is one of UTC it does so without the last letter too, by the reader that asks for no
offset. -/
theorem texts_read_back (d : Date) (c : Clock) (t : DateTime) :
    Date.ofString? d.text = some d ∧ Clock.ofString? c.text = some c ∧
      ((∃ s, t.wireText = .ok s) ↔
        (0 ≤ t.date.year ∧ t.date.year ≤ 9999) ∧ 60 ∣ t.offset ∧ t.offset.natAbs / 3600 < 24) ∧
      ∀ s, t.wireText = .ok s → DateTime.ofString? s = some t ∧
        (t.offset = 0 → ∃ r : String, s = r ++ "Z" ∧ Rfc3339.ofChars? r.toList = none ∧
          Iso8601.ofChars? r.toList = none ∧ DateTime.ofLocal? r.toList = some t ∧
          DateTime.ofString? r = some t) := by
  refine ⟨d.ofString?_text, c.ofString?_text, ?_, ?_⟩
  · obtain ⟨-, hmax, -⟩ := t.date.isDate
    simp only [DateTime.wireText_eq_ok_iff, exists_and_left, exists_eq, and_true, hmax,
      DateTime.hasText_iff]
  · intro s hs
    obtain ⟨htext, rfl⟩ := DateTime.wireText_eq_ok_iff.mp hs
    refine ⟨htext.ofString?_chars, fun hutc => ⟨String.ofList t.localChars, ?_, ?_, ?_, ?_, ?_⟩⟩
    · have hletter : Rfc3339.offsetChars t = ['Z'] := by
        simp [Rfc3339.offsetChars, hutc]
      rw [Rfc3339.chars_eq, hletter, String.ofList_append]
    · rw [String.toList_ofList]
      exact Rfc3339.ofChars?_localChars htext.year
    · rw [String.toList_ofList]
      exact Iso8601.ofChars?_localChars htext.year
    · rw [String.toList_ofList]
      exact DateTime.ofLocal?_localChars hutc
    · exact DateTime.ofString?_localChars htext.year hutc

/-- The last nanosecond of a leap day in UTC, and the first day of all. -/
theorem texts_read_back_leap_day :
    let t : DateTime := ⟨⟨2024, 2, 29, by decide⟩, ⟨23, 59, 59, 999999999, by decide, by decide,
      by decide, by decide⟩, 0, by decide⟩
    Date.ofString? "-9999-01-01" = some ⟨-9999, 1, 1, by decide⟩ ∧
      t.wireText = .ok "2024-02-29T23:59:59.999999999Z" ∧
      DateTime.ofString? "2024-02-29T23:59:59.999999999Z" = some t ∧
      DateTime.ofString? "2024-02-29T23:59:59.999999999" = some t := by
  intro t
  obtain ⟨hdate, -, -, hread⟩ := texts_read_back ⟨-9999, 1, 1, by decide⟩ t.clock t
  have hs : t.wireText = .ok "2024-02-29T23:59:59.999999999Z" := by decide +kernel
  obtain ⟨hback, hutc⟩ := hread _ hs
  obtain ⟨r, hr, -, -, -, hlocal⟩ := hutc rfl
  have hr' : r = "2024-02-29T23:59:59.999999999" := by
    have hcut : "2024-02-29T23:59:59.999999999" ++ "Z" = r ++ "Z" := by
      rw [← hr]
      decide +kernel
    exact (String.append_left_inj "Z").mp hcut.symm
  have htext : Date.text ⟨-9999, 1, 1, by decide⟩ = "-9999-01-01" := by decide +kernel
  rw [hr'] at hlocal
  rw [htext] at hdate
  exact ⟨hdate, hs, hback, hlocal⟩

end Calendar

end Marshal
