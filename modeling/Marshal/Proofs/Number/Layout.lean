import Marshal.Number.Numeral
import Marshal.Proofs.Json.Numbers
import Marshal.Proofs.Number.Shortest

/-!
The texts of decimal numbers with a point or an exponent, and what they are read as.
-/

namespace Marshal

open Json

/-- The text has the parts of a number, more than a whole one, and stands for `x`. -/
inductive Lays : List Char → ℚ → Prop
  | mk {w f e : List Char} {n : ℤ} {x : ℚ} (whole : WholePart w) (fraction : FractionPart f)
      (exponent : ExponentPart e) (float : f ++ e ≠ []) (power : Numeral.exponent? e = some n)
      (value : (Nat.ofDigitChars 10 (w ++ f.tail) 0 : ℚ) * 10 ^ (n - f.tail.length) = x) :
      Lays (w ++ f ++ e) x

/-- A point, and no exponent. -/
theorem Lays.point {w ds : List Char} {x : ℚ} (hw : WholePart w) (hne : ds ≠ [])
    (hds : ∀ c ∈ ds, c.isDigit = true)
    (hx : (Nat.ofDigitChars 10 (w ++ ds) 0 : ℚ) * 10 ^ (-(ds.length : ℤ)) = x) :
    Lays (w ++ '.' :: ds) x := by
  have h := Lays.mk hw (.point hne hds) .nil (by simp) (n := 0) rfl (x := x)
    (by rwa [List.tail_cons, zero_sub])
  rwa [List.append_nil] at h

/-! ### Layouts -/

theorem wholePart_natChars_append {n : ℕ} (hn : n ≠ 0) {cs : List Char}
    (hcs : ∀ c ∈ cs, c.isDigit = true) : WholePart (natChars n ++ cs) where
  ne_nil := by simp [natChars_ne_nil]
  digits c hc := (List.mem_append.mp hc).elim isDigit_of_mem_natChars (hcs c)
  zero rest h := by
    obtain ⟨c, ds, hhead, -⟩ := head_natChars n
    rw [hhead, List.cons_append] at h
    rw [(List.cons.inj h).1] at hhead
    exact absurd hhead (natChars_ne_zero_cons hn ds)

theorem wholePart_digit {c : Char} (hc : c.isDigit = true) : WholePart [c] where
  ne_nil := by simp
  digits := List.forall_mem_singleton.mpr hc
  zero _ h := (List.cons.inj h).2.symm

theorem isDigit_of_mem_zeros {n : ℕ} {c : Char} (hc : c ∈ List.replicate n '0') :
    c.isDigit = true := by
  rw [(List.mem_replicate.mp hc).2]
  rfl

namespace FloatLayout

variable {x : Scaled}

/-- Zeros up to the point, and one after it. -/
theorem lays_zeros (hx : x.digits ≠ 0) (he : 0 ≤ x.exponent) :
    Lays (natChars x.digits ++ List.replicate x.exponent.toNat '0' ++ ['.', '0']) x.value := by
  refine .point (wholePart_natChars_append hx fun _ => isDigit_of_mem_zeros) (by simp) (by simp) ?_
  obtain ⟨k, hk⟩ := Int.eq_ofNat_of_zero_le he
  have hzeros : List.replicate k '0' ++ ['0'] = List.replicate (k + 1) '0' :=
    List.replicate_succ'.symm
  rw [Scaled.value, hk, Int.toNat_natCast, List.append_assoc, hzeros, Nat.ofDigitChars_append,
    ofDigitChars_natChars, Nat.ofDigitChars_replicate_zero, List.length_singleton, Nat.cast_one,
    zpow_neg_one, zpow_natCast, pow_succ]
  push_cast
  field_simp

/-- A point among the digits. -/
theorem lays_among (hx : x.digits ≠ 0) (he : x.exponent < 0)
    (hplaces : (-x.exponent).toNat < (natChars x.digits).length) :
    Lays ((natChars x.digits).take ((natChars x.digits).length - (-x.exponent).toNat) ++
      '.' :: (natChars x.digits).drop ((natChars x.digits).length - (-x.exponent).toNat))
      x.value := by
  set cut := (natChars x.digits).length - (-x.exponent).toNat with hcut
  have hwhole : WholePart ((natChars x.digits).take cut) := by
    refine ⟨?_, fun c hc => isDigit_of_mem_natChars (List.mem_of_mem_take hc), fun rest h => ?_⟩
    · rw [Ne, List.take_eq_nil_iff]
      simp [natChars_ne_nil]
      omega
    · have hsplit := List.take_append_drop cut (natChars x.digits)
      rw [h, List.cons_append] at hsplit
      exact absurd hsplit.symm (natChars_ne_zero_cons hx _)
  refine .point hwhole ?_ (fun c hc => isDigit_of_mem_natChars (List.mem_of_mem_drop hc)) ?_
  · rw [Ne, List.drop_eq_nil_iff]
    omega
  · have hlength : (((natChars x.digits).drop cut).length : ℤ) = -x.exponent := by
      rw [List.length_drop]
      omega
    rw [List.take_append_drop, ofDigitChars_natChars, hlength, neg_neg]
    rfl

/-- A point before all digits. -/
theorem lays_before (he : x.exponent < 0)
    (hplaces : (natChars x.digits).length ≤ (-x.exponent).toNat) :
    Lays ('0' :: '.' :: (List.replicate ((-x.exponent).toNat - (natChars x.digits).length) '0' ++
      natChars x.digits)) x.value := by
  refine .point (wholePart_digit rfl) (by simp [natChars_ne_nil]) (fun c hc => ?_) ?_
  · exact (List.mem_append.mp hc).elim isDigit_of_mem_zeros isDigit_of_mem_natChars
  · set zeros := (-x.exponent).toNat - (natChars x.digits).length with hzeros
    have hlength : ((List.replicate zeros '0' ++ natChars x.digits).length : ℤ) = -x.exponent := by
      rw [List.length_append, List.length_replicate]
      omega
    have hfront : ['0'] ++ (List.replicate zeros '0' ++ natChars x.digits) =
        List.replicate (zeros + 1) '0' ++ natChars x.digits := by
      rw [List.replicate_succ]
      rfl
    rw [hlength, neg_neg, hfront, Nat.ofDigitChars_append, Nat.ofDigitChars_replicate_zero,
      Nat.mul_zero, ofDigitChars_natChars]
    rfl

theorem exponentPart_signed (e : ℤ) :
    ExponentPart ('e' :: (if e < 0 then '-' else '+') :: natChars e.natAbs) := by
  refine .power ?_ (natChars_ne_nil _) fun _ => isDigit_of_mem_natChars
  split_ifs
  · exact .inl rfl
  · exact .inr rfl

theorem exponent?_signed (e : ℤ) :
    Numeral.exponent? ('e' :: (if e < 0 then '-' else '+') :: natChars e.natAbs) = some e := by
  have hread : readDigits? (natChars e.natAbs) = some e.natAbs := readDigits?_natChars _
  rw [Numeral.exponent?, if_pos (.inl rfl)]
  split_ifs with he
  · rw [readInt?, hread]
    show some (-(e.natAbs : ℤ)) = some e
    congr 1
    omega
  · rw [readInt?, readNat?, hread]
    · show some (e.natAbs : ℤ) = some e
      congr 1
      omega
    · simp

/-- One digit before the point, and the exponent. -/
theorem lays_scientific (x : Scaled) :
    Lays (scientific (natChars x.digits) ((natChars x.digits).length - 1 + x.exponent))
      x.value := by
  have hdigits : ∀ c ∈ natChars x.digits, c.isDigit = true := fun _ => isDigit_of_mem_natChars
  have hvalue := ofDigitChars_natChars x.digits
  obtain ⟨d, rest, hhead, hd⟩ := head_natChars x.digits
  rw [hhead] at hdigits hvalue ⊢
  cases rest with
  | nil =>
      refine Lays.mk (wholePart_digit hd) .nil (exponentPart_signed _) (by simp)
        (exponent?_signed _) ?_
      rw [List.tail_nil, List.append_nil, hvalue]
      simp [Scaled.value]
  | cons r rs =>
      have hfraction : FractionPart ('.' :: r :: rs) :=
        .point (by simp) fun c hc => hdigits c (List.mem_cons_of_mem d hc)
      refine Lays.mk (wholePart_digit hd) hfraction (exponentPart_signed _) (by simp)
        (exponent?_signed _) ?_
      rw [List.tail_cons, List.singleton_append, hvalue]
      simp [Scaled.value]

theorem lays_pointed (hx : x.digits ≠ 0) : Lays (exponential.pointed x) x.value := by
  simp only [pointed]
  split_ifs with he hplaces
  · exact lays_zeros hx he
  · exact lays_among hx (by omega) hplaces
  · exact lays_before (by omega) (by omega)

theorem lays_positive (hx : x.digits ≠ 0) : Lays (exponential.positive x) x.value := by
  simp only [positive, exponential]
  split_ifs
  · exact lays_pointed hx
  · exact lays_scientific x

/-- A finite number is laid out with its shortest digits, and zero with one. -/
theorem lays_finite (s : Shape) (negative : Bool) (m : ℕ) (q : ℤ) :
    ∃ cs, exponential.chars s (.finite negative m q) = (if negative then ['-'] else []) ++ cs ∧
      Lays cs (if m = 0 then 0 else (Scaled.shortest exponential.tie s m q).value) := by
  by_cases hm : m = 0
  · refine ⟨['0', '.', '0'], by simp [chars, hm, whole, exponential], ?_⟩
    rw [if_pos hm]
    exact Lays.point (w := ['0']) (wholePart_digit rfl) (by simp) (by simp)
      (by simp [Nat.ofDigitChars])
  · refine ⟨exponential.positive (Scaled.shortest exponential.tie s m q),
      by rw [chars, if_neg hm], ?_⟩
    rw [if_neg hm]
    exact lays_positive (Scaled.digits_shortest_pos _ (Nat.pos_of_ne_zero hm) q).ne'

end FloatLayout

/-! ### Reading -/

section Reading

variable {cs : List Char} {x : ℚ} (negative : Bool)

theorem Numeral.unsigned?_of_isDigit {c : Char} (hc : c.isDigit = true) (cs : List Char) :
    Numeral.unsigned? negative (c :: cs) = Numeral.finite? negative (c :: cs) := by
  have hlower : c.toLower = c := by
    refine dif_neg fun hupper => ?_
    simp only [Char.isDigit, Bool.and_eq_true, decide_eq_true_eq] at hc
    have hle := UInt32.le_trans hupper.1 hc.2
    exact absurd hle (by decide)
  have hword : ∀ d : Char, d.isDigit = false → ∀ ds, (c :: cs).map Char.toLower ≠ d :: ds := by
    intro d hd ds
    rw [List.map_cons, hlower]
    exact cons_ne_of_isDigit hc hd _ _
  have hnan : (c :: cs).map Char.toLower ≠ "nan".toList := hword 'n' rfl _
  have hinf : (c :: cs).map Char.toLower ≠ "inf".toList := hword 'i' rfl _
  have hinfinity : (c :: cs).map Char.toLower ≠ "infinity".toList := hword 'i' rfl _
  rw [Numeral.unsigned?, if_neg hnan, if_neg (by simp only [hinf, hinfinity, or_self,
    not_false_eq_true])]

theorem Numeral.finite?_of_lays (h : Lays cs x) :
    ∃ digits exponent, Numeral.finite? negative cs = some (.finite negative digits exponent) ∧
      (digits : ℚ) * 10 ^ exponent = x := by
  obtain ⟨hw, hf, he, -, hpower, hvalue⟩ := h
  rename_i w f e n
  refine ⟨_, _, ?_, hvalue⟩
  have hdigit : Text.NoDigit e := by
    cases he <;> simp
  have hrest : Text.NoDigit (f ++ e) := by
    cases hf <;> cases he <;> simp
  rw [Numeral.finite?, List.append_assoc, Text.takeWhile_isDigit hw.digits hrest,
    Text.dropWhile_isDigit hw.digits hrest]
  have hne : w.isEmpty = false := by simpa using hw.ne_nil
  cases hf with
  | nil =>
      cases he <;> simp [hne, hpower]
  | @point ds hne' hds =>
      simp only [List.cons_append, Text.takeWhile_isDigit hds hdigit,
        Text.dropWhile_isDigit hds hdigit, hne, hpower]
      rfl

theorem head_of_lays (h : Lays cs x) : ∃ c rest, cs = c :: rest ∧ c.isDigit = true := by
  cases h with
  | mk hw _ _ _ _ _ =>
      obtain ⟨c, w, rfl⟩ := List.exists_cons_of_ne_nil hw.ne_nil
      exact ⟨c, _, rfl, hw.digits c (by simp)⟩

theorem Numeral.ofChars?_of_lays (h : Lays cs x) :
    ∃ digits exponent, Numeral.ofChars? ((if negative then ['-'] else []) ++ cs) =
        some (.finite negative digits exponent) ∧
      (digits : ℚ) * 10 ^ exponent = x := by
  obtain ⟨digits, exponent, hread, hvalue⟩ := Numeral.finite?_of_lays negative h
  refine ⟨digits, exponent, ?_, hvalue⟩
  obtain ⟨c, rest, rfl, hc⟩ := head_of_lays h
  rw [← Numeral.unsigned?_of_isDigit negative hc] at hread
  cases negative with
  | true => exact hread
  | false =>
      simp only [Bool.false_eq_true, if_false, List.nil_append]
      rw [Numeral.ofChars?]
      · exact hread
      · exact fun _ => cons_ne_of_isDigit hc rfl _ _
      · exact fun _ => cons_ne_of_isDigit hc rfl _ _

theorem readDigits?_of_lays (h : Lays cs x) : readDigits? cs = none := by
  rw [Option.eq_none_iff_forall_ne_some]
  intro n hn
  obtain ⟨-, hdigits⟩ := readDigits?_eq_some hn
  cases h with
  | mk _ hf he hfloat _ _ =>
      cases hf with
      | point _ _ => exact absurd (hdigits '.' (by simp)) (by decide)
      | nil =>
          cases he with
          | nil => exact hfloat rfl
          | power _ _ _ => exact absurd (hdigits 'e' (by simp)) (by decide)

/-- With a point or an exponent, the text is not that of an integer. -/
theorem readInt64?_of_lays (h : Lays cs x) :
    readInt64? ((if negative then ['-'] else []) ++ cs) = none := by
  have hdigits := readDigits?_of_lays h
  obtain ⟨c, rest, rfl, hc⟩ := head_of_lays h
  cases negative with
  | true =>
      show ((readDigits? (c :: rest)).map fun n => -(n : ℤ)).bind toInt64? = none
      rw [hdigits]
      rfl
  | false =>
      simp only [Bool.false_eq_true, if_false, List.nil_append]
      rw [readInt64?, readInt?, readNat?, hdigits]
      · rfl
      · exact fun _ => cons_ne_of_isDigit hc rfl _ _
      · exact fun _ => cons_ne_of_isDigit hc rfl _ _

theorem isNumber_of_lays (h : Lays cs x) :
    IsNumber (String.ofList ((if negative then ['-'] else []) ++ cs)) := by
  obtain ⟨hw, hf, he, -, -, -⟩ := h
  exact isNumber_ofList negative hw hf he

end Reading

end Marshal
