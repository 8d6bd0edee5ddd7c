import Marshal.Proofs.Decimal
import Marshal.Proofs.Json.Scanning

/-!
The texts of numbers: a whole part, perhaps a fraction and perhaps an exponent, and a minus before
them. A text of this form is kept as it is.
-/

namespace Marshal

namespace Json

/-- Digits that may stand before the point: a zero has no other after it. -/
structure WholePart (ds : List Char) : Prop where
  ne_nil : ds ≠ []
  digits : ∀ c ∈ ds, c.isDigit = true
  zero : ∀ rest, ds = '0' :: rest → rest = []

inductive FractionPart : List Char → Prop
  | nil : FractionPart []
  | point {ds : List Char} (hne : ds ≠ []) (digits : ∀ c ∈ ds, c.isDigit = true) :
      FractionPart ('.' :: ds)

inductive ExponentPart : List Char → Prop
  | nil : ExponentPart []
  | power {sign : Char} {ds : List Char} (hsign : sign = '-' ∨ sign = '+') (hne : ds ≠ [])
      (digits : ∀ c ∈ ds, c.isDigit = true) : ExponentPart ('e' :: sign :: ds)

namespace Token

theorem wholePart?_append {ds rest : List Char} (h : WholePart ds) (hrest : Text.NoDigit rest) :
    wholePart? (ds ++ rest) = some (ds, rest) := by
  rw [wholePart?, Text.takeWhile_isDigit h.digits hrest, Text.dropWhile_isDigit h.digits hrest]
  split
  · exact absurd rfl h.ne_nil
  · exact absurd (h.zero _ rfl) (by simp)
  · rfl

theorem fractionPart?_append {f e : List Char} (hf : FractionPart f) (he : ExponentPart e) :
    fractionPart? (f ++ e) = some (f, e) := by
  have hdigit : Text.NoDigit e := by
    cases he <;> simp
  cases hf with
  | nil =>
      cases he <;> simp [fractionPart?]
  | @point ds hne hds =>
      rw [List.cons_append, fractionPart?, Text.takeWhile_isDigit hds hdigit,
        Text.dropWhile_isDigit hds hdigit]
      cases ds with
      | nil => exact absurd rfl hne
      | cons d ds => rfl

theorem exponentPart?_eq {e : List Char} (he : ExponentPart e) : exponentPart? e = some e := by
  cases he with
  | nil => rfl
  | @power sign ds hsign hne hds =>
      have hdigits : isDigits ds = true := by
        rw [isDigits, Bool.and_eq_true, List.all_eq_true]
        exact ⟨by simp [hne], hds⟩
      rcases hsign with rfl | rfl <;> simp [exponentPart?, hdigits]

variable {w f e : List Char}

theorem unsignedNumber?_eq (hw : WholePart w) (hf : FractionPart f) (he : ExponentPart e) :
    unsignedNumber? (w ++ f ++ e) = some (w ++ f ++ e) := by
  have hrest : Text.NoDigit (f ++ e) := by
    cases hf <;> cases he <;> simp
  rw [unsignedNumber?, List.append_assoc, wholePart?_append hw hrest]
  simp only [Option.bind_eq_bind, Option.bind_some, fractionPart?_append hf he, exponentPart?_eq he,
    Option.pure_def, List.append_assoc]

theorem number?_eq (negative : Bool) (hw : WholePart w) (hf : FractionPart f)
    (he : ExponentPart e) :
    number? ((if negative then ['-'] else []) ++ (w ++ f ++ e)) =
      some ((if negative then ['-'] else []) ++ (w ++ f ++ e)) := by
  have hunsigned := unsignedNumber?_eq hw hf he
  cases negative with
  | true =>
      simp only [if_true, List.singleton_append, number?, hunsigned, Option.map_some]
  | false =>
      obtain ⟨c, cs, rfl⟩ := List.exists_cons_of_ne_nil hw.ne_nil
      have hc := hw.digits c (by simp)
      simp only [Bool.false_eq_true, if_false, List.nil_append, List.cons_append] at hunsigned ⊢
      rw [number?]
      · exact hunsigned
      · exact fun _ => cons_ne_of_isDigit hc rfl _ _

end Token

theorem isWordChar_of_isDigit {c : Char} (h : c.isDigit = true) : Token.isWordChar c = true := by
  simp [Token.isWordChar, Char.isAlphanum, h]

/-- A text of the form of numbers is that of a number. -/
theorem isNumber_ofList {w f e : List Char} (negative : Bool) (hw : WholePart w)
    (hf : FractionPart f) (he : ExponentPart e) :
    IsNumber (String.ofList ((if negative then ['-'] else []) ++ (w ++ f ++ e))) where
  ne_nil := by simp [hw.ne_nil]
  chars := by
    rw [String.toList_ofList]
    have hwhole : ∀ c ∈ w, Token.isWordChar c = true :=
      fun c hc => isWordChar_of_isDigit (hw.digits c hc)
    have hfraction : ∀ c ∈ f, Token.isWordChar c = true := by
      cases hf with
      | nil => simp
      | point _ hds =>
          exact List.forall_mem_cons.mpr ⟨rfl, fun c hc => isWordChar_of_isDigit (hds c hc)⟩
    have hexponent : ∀ c ∈ e, Token.isWordChar c = true := by
      cases he with
      | nil => simp
      | power hsign _ hds =>
          refine List.forall_mem_cons.mpr ⟨rfl, List.forall_mem_cons.mpr ⟨?_, ?_⟩⟩
          · rcases hsign with rfl | rfl <;> rfl
          · exact fun c hc => isWordChar_of_isDigit (hds c hc)
    have hsign : ∀ c ∈ (if negative then ['-'] else []), Token.isWordChar c = true := by
      cases negative <;> simp [Token.isWordChar]
    intro c hc
    simp only [List.mem_append] at hc
    rcases hc with hc | (hc | hc) | hc
    · exact hsign c hc
    · exact hwhole c hc
    · exact hfraction c hc
    · exact hexponent c hc
  word := by
    have hnumber := Token.number?_eq negative hw hf he
    have hfirst : ∃ c cs, (if negative then ['-'] else []) ++ (w ++ f ++ e) = c :: cs ∧
        (c = '-' ∨ c.isDigit = true) := by
      obtain ⟨d, ds, rfl⟩ := List.exists_cons_of_ne_nil hw.ne_nil
      cases negative with
      | true => exact ⟨'-', _, rfl, .inl rfl⟩
      | false => exact ⟨d, _, rfl, .inr (hw.digits d (by simp))⟩
    obtain ⟨c, cs, htext, hc⟩ := hfirst
    rw [htext] at hnumber ⊢
    have hname : ∀ d : Char, d ≠ '-' → d.isDigit = false → ∀ ds, c :: cs ≠ d :: ds := by
      rintro d hminus hdigit ds h
      obtain ⟨rfl, -⟩ := List.cons.inj h
      rcases hc with hc | hc
      · exact hminus hc
      · rw [hdigit] at hc
        cases hc
    have hnull : c :: cs ≠ "null".toList := hname 'n' (by decide) rfl _
    have htrue : c :: cs ≠ "true".toList := hname 't' (by decide) rfl _
    have hfalse : c :: cs ≠ "false".toList := hname 'f' (by decide) rfl _
    rw [String.toList_ofList, Token.word?, if_neg hnull, if_neg htrue, if_neg hfalse, hnumber,
      Option.map_some]

theorem wholePart_natChars (n : Nat) : WholePart (natChars n) where
  ne_nil := natChars_ne_nil n
  digits _ := isDigit_of_mem_natChars
  zero rest h := by
    by_cases hn : n = 0
    · subst hn
      cases h
      rfl
    · exact absurd h (natChars_ne_zero_cons hn rest)

theorem isNumber_intText (n : Int) : IsNumber (intText n) := by
  have h := isNumber_ofList (decide (n < 0)) (wholePart_natChars n.natAbs) .nil .nil
  have hchars : intChars n =
      (if decide (n < 0) then ['-'] else []) ++ (natChars n.natAbs ++ [] ++ []) := by
    by_cases hn : n < 0 <;> simp [intChars, hn]
  rwa [← hchars] at h

theorem wholePart_wholeChars (d : Decimal) : WholePart d.wholeChars where
  ne_nil := d.wholeChars_ne_nil
  digits _ := Decimal.isDigit_of_mem_wholeChars
  zero rest h := by
    have hlength : d.wholeChars.length = rest.length + 1 := by rw [h, List.length_cons]
    rw [Decimal.wholeChars, List.length_take, paddedChars, List.length_append,
      List.length_replicate] at hlength
    by_cases hpadded : (natChars d.mantissa).length ≤ d.scale + 1
    · exact List.eq_nil_of_length_eq_zero (by omega)
    · -- Without padding a zero in front is the only digit.
      have hplain : paddedChars (d.scale + 1) d.mantissa = natChars d.mantissa := by
        rw [paddedChars, Nat.sub_eq_zero_of_le (by omega), List.replicate_zero, List.nil_append]
      obtain ⟨c, cs, hhead, -⟩ := head_natChars d.mantissa
      have hmantissa : d.mantissa ≠ 0 := by
        intro hzero
        rw [hzero] at hpadded
        exact hpadded (Nat.le_add_left 1 _)
      have hc : c = '0' := by
        rw [Decimal.wholeChars, hplain, hhead] at h
        obtain ⟨k, hk⟩ : ∃ k, (c :: cs).length - d.scale = k + 1 := by
          rw [hhead] at hpadded
          exact ⟨(c :: cs).length - d.scale - 1, by omega⟩
        rw [hk, List.take_succ_cons] at h
        exact (List.cons.inj h).1
      exact absurd (hc ▸ hhead) (natChars_ne_zero_cons hmantissa cs)

theorem isNumber_decimal (d : Decimal) : IsNumber d.text := by
  have hplaces : FractionPart (if d.scale = 0 then [] else '.' :: d.placeChars) := by
    split_ifs with hscale
    · exact .nil
    · refine .point ?_ fun _ => Decimal.isDigit_of_mem_placeChars
      intro hnil
      have hlength := d.length_placeChars
      rw [hnil] at hlength
      exact hscale hlength.symm
  have h := isNumber_ofList d.negative (wholePart_wholeChars d) hplaces .nil
  rw [Decimal.text, Decimal.chars_eq, Decimal.bodyChars]
  rwa [List.append_nil] at h

end Json

end Marshal
