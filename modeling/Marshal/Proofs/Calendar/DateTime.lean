import Marshal.Calendar.Iso8601
import Marshal.Draft.Call
import Marshal.Proofs.Calendar.Clock
import Marshal.Proofs.Calendar.Date

/-!
Moments that RFC 3339 has a text for, read back from it.
-/

namespace Marshal

namespace DateTime

/-- RFC 3339 has a text for the moment: its year is not below zero, and its offset is less than a
day and has whole minutes. -/
structure HasText (t : DateTime) : Prop where
  year : 0 ≤ t.date.year
  day : t.offset.natAbs < 86400
  minutes : t.offset.natAbs % 60 = 0

theorem HasText.format_eq {t : DateTime} (h : t.HasText) :
    Rfc3339.format t = .ok (String.ofList (Rfc3339.chars t)) := by
  have hyear := h.year
  have hhour : ¬ 23 < t.offset.natAbs / 3600 := by
    have := h.day
    omega
  rw [Rfc3339.format, Rfc3339.obstacle?, offsetParts]
  simp [Int.not_lt.mpr hyear, hhour, h.minutes]

theorem hasText_of_format {t : DateTime} {s : String} (h : Rfc3339.format t = .ok s) :
    t.HasText := by
  have hnone : Rfc3339.obstacle? t = none := by
    cases hobstacle : Rfc3339.obstacle? t with
    | none => rfl
    | some o =>
        rw [Rfc3339.format, hobstacle] at h
        cases h
  rw [Rfc3339.obstacle?, offsetParts] at hnone
  simp only at hnone
  split_ifs at hnone with hyear hhour hsecond
  exact ⟨by omega, by omega, by omega⟩

theorem wireText_eq_ok_iff {t : DateTime} {s : String} :
    t.wireText = .ok s ↔ t.HasText ∧ s = String.ofList (Rfc3339.chars t) := by
  constructor
  · intro h
    cases hformat : Rfc3339.format t with
    | error o =>
        rw [wireText, hformat] at h
        cases h
    | ok r =>
        have htext := hasText_of_format hformat
        rw [wireText, htext.format_eq] at h
        cases h
        exact ⟨htext, rfl⟩
  · rintro ⟨htext, rfl⟩
    rw [wireText, htext.format_eq]

theorem ofParts?_eq (t : DateTime) :
    ofParts? t.date t.clock.hour t.clock.minute t.clock.second t.clock.nanosecond t.offset =
      some t := by
  have hsecond : t.clock.second ≠ 60 := Nat.ne_of_lt t.clock.second_lt
  have hof : of? t.date t.clock t.offset = some t := by rw [of?, dif_pos t.isOffset]
  simp [ofParts?, guard, t.clock.nanosecond_lt, hsecond, Clock.of?_eq, hof]

def localChars (t : DateTime) : List Char :=
  t.date.chars ++ 'T' :: t.clock.chars

end DateTime

namespace Rfc3339

open DateTime

theorem chars_eq (t : DateTime) : chars t = t.localChars ++ offsetChars t := rfl

theorem head_offsetChars (t : DateTime) :
    ∃ c cs, offsetChars t = c :: cs ∧ (c = 'Z' ∨ c = '-' ∨ c = '+') := by
  rw [offsetChars, offsetParts]
  simp only
  split
  · exact ⟨_, _, rfl, .inl rfl⟩
  · split
    · exact ⟨_, _, rfl, .inr (.inl rfl)⟩
    · exact ⟨_, _, rfl, .inr (.inr rfl)⟩

theorem offset?_of_sign (sign : Char) {negative : Bool} {h m : Nat}
    (hsign : Text.sign? (sign :: (paddedChars 2 h ++ ':' :: paddedChars 2 m)) =
      some (negative, paddedChars 2 h ++ ':' :: paddedChars 2 m))
    (hne : sign ≠ 'Z' ∧ sign ≠ 'z') (hh : h < 24) (hm : m < 60) :
    offset? (sign :: (paddedChars 2 h ++ ':' :: paddedChars 2 m)) =
      some (Text.negateIf negative (h * 3600 + m * 60), []) := by
  have hhour := Text.digits?_paddedChars (n := h) (by decide : 0 < 2) (by omega)
  have hminute := Text.digits?_paddedChars_end (n := m) (by decide : 0 < 2) (by omega)
  -- The reader tries `Z` and `z` before a sign, so its last case asks that there is neither.
  rw [offset?]
  · simp only [hsign, hhour, hminute, Text.char?_cons, Option.bind_eq_bind, Option.bind_some, guard,
      if_pos (And.intro hh hm)]
    rfl
  · intro _ he
    exact hne.1 (List.cons.inj he).1
  · intro _ he
    exact hne.2 (List.cons.inj he).1

theorem offset?_offsetChars {t : DateTime} (h : t.HasText) :
    offset? (offsetChars t) = some (t.offset, []) := by
  have hday := h.day
  have hminutes := h.minutes
  rw [offsetChars, offsetParts]
  by_cases h0 : t.offset = 0
  · simp [h0, offset?]
  · have hh : t.offset.natAbs / 3600 < 24 := by omega
    have hm : t.offset.natAbs / 60 % 60 < 60 := by omega
    have hparts : t.offset.natAbs / 3600 * 3600 + t.offset.natAbs / 60 % 60 * 60 =
        t.offset.natAbs := by omega
    by_cases hneg : t.offset < 0
    · have hread := offset?_of_sign '-' rfl (by decide) hh hm
      have hback : Text.negateIf true t.offset.natAbs = t.offset := by
        rw [Text.negateIf, if_pos rfl]
        omega
      rw [hparts, hback] at hread
      simpa only [h0, hneg, if_true, if_false, List.cons_append] using hread
    · have hread := offset?_of_sign '+' rfl (by decide) hh hm
      have hback : Text.negateIf false t.offset.natAbs = t.offset := by
        rw [Text.negateIf, if_neg Bool.false_ne_true]
        omega
      rw [hparts, hback] at hread
      simpa only [h0, hneg, if_false, List.cons_append] using hread

/-- The fraction is read up to what cannot belong to it. -/
theorem fraction?_pointChars (c : Clock) {cs : List Char} (hdigit : Text.NoDigit cs)
    (hpoint : ∀ rest, cs ≠ '.' :: rest) :
    fraction? (c.pointChars ++ cs) = some (c.nanosecond, cs) := by
  by_cases h : c.nanosecond = 0
  · rw [Clock.pointChars, if_pos h, List.nil_append, h, fraction?]
    exact hpoint
  · have hdigits := c.someDigits?_fractionChars h hdigit
    simp only [Clock.pointChars, if_neg h, List.cons_append, fraction?, hdigits, Option.map_some,
      Clock.nanosOfFraction_fractionChars c.nanosecond_lt]

/-- Day and time of day are read, and what comes after them has to be an offset. -/
theorem ofChars?_localChars_append {t : DateTime} (hyear : 0 ≤ t.date.year) {cs : List Char}
    (hdigit : Text.NoDigit cs) (hpoint : ∀ rest, cs ≠ '.' :: rest) :
    ofChars? (t.localChars ++ cs) = (do
      let (offset, rest) ← offset? cs
      guard rest.isEmpty
      DateTime.ofParts? t.date t.clock.hour t.clock.minute t.clock.second t.clock.nanosecond
        offset) := by
  have habs : (t.date.year.natAbs : Int) = t.date.year := by omega
  have hdigits (cs : List Char) : Text.digits? 4 (Date.yearChars t.date.year ++ cs) =
      some (t.date.year.natAbs, cs) := by
    rw [Date.yearChars, if_neg (Int.not_lt.mpr hyear), List.nil_append]
    exact Text.digits?_paddedChars (by decide) t.date.natAbs_year_lt cs
  have hsep (cs : List Char) : separator? ('T' :: cs) = some cs := rfl
  simp only [ofChars?, localChars, Date.chars, Clock.chars_eq, Clock.secondChars, List.append_assoc,
    List.cons_append, hdigits, hsep, Text.char?_cons, Date.digits?_month, Date.digits?_day,
    Clock.digits?_hour, Clock.digits?_minute, Clock.digits?_second, Option.bind_eq_bind,
    Option.bind_some, fraction?_pointChars t.clock hdigit hpoint, habs, Date.of?_eq]

theorem ofChars?_chars {t : DateTime} (h : t.HasText) : ofChars? (chars t) = some t := by
  obtain ⟨c, cs, hhead, hc⟩ := head_offsetChars t
  have hdigit : Text.NoDigit (offsetChars t) := by
    rw [hhead, Text.noDigit_cons]
    rcases hc with rfl | rfl | rfl <;> rfl
  have hpoint (rest : List Char) : offsetChars t ≠ '.' :: rest := by
    rw [hhead]
    rintro ⟨⟩
    simp at hc
  rw [chars_eq, ofChars?_localChars_append h.year hdigit hpoint, offset?_offsetChars h]
  exact t.ofParts?_eq

/-- An offset that is missing is missed. -/
theorem ofChars?_localChars {t : DateTime} (h : 0 ≤ t.date.year) :
    ofChars? t.localChars = none := by
  have hread := ofChars?_localChars_append h Text.noDigit_nil fun _ => (List.cons_ne_nil _ _).symm
  rw [List.append_nil] at hread
  exact hread

theorem solid_chars (t : DateTime) : Text.Solid (chars t) := by
  have hsign : Text.isBlank '-' = false ∧ Text.isBlank '+' = false := by decide
  have hoffset : Text.Solid (offsetChars t) := by
    rw [offsetChars, offsetParts]
    simp only
    split
    · exact Text.solid_cons.mpr ⟨by decide, Text.solid_nil⟩
    · have hcolon : Text.isBlank ':' = false := by decide
      split <;> simp [hsign, hcolon]
  have hletter : Text.isBlank 'T' = false := by decide
  simp [chars, hletter, hoffset, Date.solid_chars, Clock.solid_chars]

end Rfc3339

/-- A moment that RFC 3339 has a text for comes back from it. -/
theorem DateTime.HasText.ofString?_chars {t : DateTime} (h : t.HasText) :
    DateTime.ofString? (String.ofList (Rfc3339.chars t)) = some t := by
  rw [ofString?, String.toList_ofList, Text.trimChars_of_solid (Rfc3339.solid_chars t), ofChars?,
    Rfc3339.ofChars?_chars h]
  rfl

end Marshal
