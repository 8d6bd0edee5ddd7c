import Mathlib.Algebra.Group.Nat.Defs
import Marshal.Proofs.Text.Blank
import Marshal.Text.Scan

/-!
Numbers read back from their digits, and digits taken off the front of a text.
-/

namespace Marshal

theorem isDigit_of_mem_natChars {n : Nat} {c : Char} (h : c ∈ natChars n) : c.isDigit = true :=
  Nat.isDigit_of_mem_toDigits (by decide) (by decide) h

theorem isDigit_of_mem_paddedChars {width n : Nat} {c : Char} (h : c ∈ paddedChars width n) :
    c.isDigit = true := by
  rcases List.mem_append.mp h with h | h
  · rw [(List.mem_replicate.mp h).2]
    rfl
  · exact isDigit_of_mem_natChars h

@[simp] theorem solid_paddedChars (width n : Nat) : Text.Solid (paddedChars width n) :=
  Text.solid_of_isDigit fun _ => isDigit_of_mem_paddedChars

theorem natChars_ne_nil (n : Nat) : natChars n ≠ [] :=
  Nat.toDigits_ne_nil

@[simp] theorem ofDigitChars_natChars (n : Nat) : Nat.ofDigitChars 10 (natChars n) 0 = n :=
  Nat.ofDigitChars_ten_toDigits

@[simp] theorem ofDigitChars_paddedChars (width n : Nat) :
    Nat.ofDigitChars 10 (paddedChars width n) 0 = n := by
  rw [paddedChars, Nat.ofDigitChars_append, Nat.ofDigitChars_replicate_zero, Nat.mul_zero,
    ofDigitChars_natChars]

theorem length_natChars_le {n width : Nat} (hw : 0 < width) (h : n < 10 ^ width) :
    (natChars n).length ≤ width :=
  (Nat.length_toDigits_le_iff (by decide) hw).mpr h

theorem length_paddedChars {width n : Nat} (hw : 0 < width) (h : n < 10 ^ width) :
    (paddedChars width n).length = width := by
  have := length_natChars_le hw h
  rw [paddedChars, List.length_append, List.length_replicate]
  omega

theorem readDigits?_of_isDigit {cs : List Char} (hne : cs ≠ []) (h : ∀ c ∈ cs, c.isDigit = true) :
    readDigits? cs = some (Nat.ofDigitChars 10 cs 0) := by
  have hdigits : isDigits cs = true := by
    rw [isDigits, Bool.and_eq_true, List.all_eq_true]
    exact ⟨by simp [hne], h⟩
  rw [readDigits?, if_pos hdigits]

theorem readDigits?_natChars (n : Nat) : readDigits? (natChars n) = some n := by
  rw [readDigits?_of_isDigit (natChars_ne_nil n) fun _ => isDigit_of_mem_natChars,
    ofDigitChars_natChars]

/-- A text that begins with a digit does not begin with a sign. -/
theorem cons_ne_of_isDigit {c d : Char} (hc : c.isDigit = true) (hd : d.isDigit = false)
    (cs ds : List Char) : c :: cs ≠ d :: ds := by
  intro h
  obtain ⟨rfl, -⟩ := List.cons.inj h
  rw [hc] at hd
  cases hd

theorem head_natChars (n : Nat) : ∃ c cs, natChars n = c :: cs ∧ c.isDigit = true := by
  cases h : natChars n with
  | nil => exact absurd h (natChars_ne_nil n)
  | cons c cs => exact ⟨c, cs, rfl, isDigit_of_mem_natChars (n := n) (by simp [h])⟩

theorem natChars_eq (n : Nat) :
    natChars n =
      if n < 10 then [Nat.digitChar n] else natChars (n / 10) ++ [Nat.digitChar (n % 10)] :=
  Nat.toDigits_eq_if (by decide)

/-- No zero stands in front. -/
theorem natChars_ne_zero_cons {n : Nat} (hn : n ≠ 0) (ds : List Char) : natChars n ≠ '0' :: ds := by
  induction n using Nat.strongRecOn generalizing ds with
  | ind n ih =>
      rw [natChars_eq]
      split_ifs with hlt
      · intro h
        have hzero := (List.cons.inj h).1
        have hdigit := Nat.toNat_digitChar_of_lt_ten hlt
        rw [hzero] at hdigit
        simp at hdigit
        omega
      · obtain ⟨c, cs, hhead, -⟩ := head_natChars (n / 10)
        have hne := ih (n / 10) (by omega) (by omega) cs
        rw [hhead, List.cons_append]
        rintro h
        exact hne (by rw [hhead, (List.cons.inj h).1])

theorem readNat?_natChars (n : Nat) : readNat? (natChars n) = some n := by
  obtain ⟨c, cs, h, hc⟩ := head_natChars n
  have hread := readDigits?_natChars n
  rw [h] at hread ⊢
  rw [readNat?]
  · exact hread
  · exact fun _ => cons_ne_of_isDigit hc rfl _ _

theorem mem_intChars {n : Int} {c : Char} (h : c ∈ intChars n) : c = '-' ∨ c.isDigit = true := by
  rw [intChars] at h
  split at h
  · rcases List.mem_cons.mp h with rfl | h
    · exact .inl rfl
    · exact .inr (isDigit_of_mem_natChars h)
  · exact .inr (isDigit_of_mem_natChars h)

theorem solid_intChars (n : Int) : Text.Solid (intChars n) := by
  intro c hc
  rcases mem_intChars hc with rfl | hc
  · rfl
  · exact Text.isBlank_of_isDigit hc

theorem readInt?_intChars (n : Int) : readInt? (intChars n) = some n := by
  by_cases hn : n < 0
  · rw [intChars, if_pos hn]
    have hneg : -(n.natAbs : Int) = n := by omega
    rw [readInt?, readDigits?_natChars]
    show some (-(n.natAbs : Int)) = some n
    rw [hneg]
  · obtain ⟨c, cs, h, hc⟩ := head_natChars n.natAbs
    have hread := readNat?_natChars n.natAbs
    have habs : Int.ofNat n.natAbs = n := by
      rw [Int.ofNat_eq_natCast]
      omega
    rw [intChars, if_neg hn]
    rw [h] at hread ⊢
    rw [readInt?, hread, Option.map_some, habs]
    exact fun _ => cons_ne_of_isDigit hc rfl _ _

namespace Text

def NoDigit (cs : List Char) : Prop :=
  ∀ c rest, cs = c :: rest → c.isDigit = false

@[simp] theorem noDigit_nil : NoDigit [] := by
  simp [NoDigit]

@[simp] theorem noDigit_cons {c : Char} {cs : List Char} :
    NoDigit (c :: cs) ↔ c.isDigit = false := by
  simp [NoDigit]

theorem takeWhile_isDigit {ds cs : List Char} (hd : ∀ c ∈ ds, c.isDigit = true)
    (hc : NoDigit cs) : (ds ++ cs).takeWhile Char.isDigit = ds := by
  rw [List.takeWhile_append_of_pos hd]
  cases cs with
  | nil => simp
  | cons c cs => rw [List.takeWhile_cons_of_neg (by simp [noDigit_cons.mp hc]), List.append_nil]

theorem dropWhile_isDigit {ds cs : List Char} (hd : ∀ c ∈ ds, c.isDigit = true)
    (hc : NoDigit cs) : (ds ++ cs).dropWhile Char.isDigit = cs := by
  rw [List.dropWhile_append_of_pos hd]
  cases cs with
  | nil => rfl
  | cons c cs => rw [List.dropWhile_cons_of_neg (by simp [noDigit_cons.mp hc])]

theorem someDigits?_append {ds cs : List Char} (hne : ds ≠ []) (hd : ∀ c ∈ ds, c.isDigit = true)
    (hc : NoDigit cs) : someDigits? (ds ++ cs) = some (ds, cs) := by
  rw [someDigits?, takeWhile_isDigit hd hc, dropWhile_isDigit hd hc]
  cases ds with
  | nil => exact absurd rfl hne
  | cons d ds => rfl

theorem digits?_paddedChars {width n : Nat} (hw : 0 < width) (h : n < 10 ^ width)
    (cs : List Char) : digits? width (paddedChars width n ++ cs) = some (n, cs) := by
  have hlen := length_paddedChars hw h
  have htake : (paddedChars width n ++ cs).take width = paddedChars width n :=
    List.take_left' hlen
  have hdrop : (paddedChars width n ++ cs).drop width = cs := List.drop_left' hlen
  have hall : (paddedChars width n).all Char.isDigit = true :=
    List.all_eq_true.mpr fun c => isDigit_of_mem_paddedChars
  rw [digits?, htake, hdrop, if_pos ⟨hlen, hall⟩, ofDigitChars_paddedChars]

theorem digits?_paddedChars_end {width n : Nat} (hw : 0 < width) (h : n < 10 ^ width) :
    digits? width (paddedChars width n) = some (n, []) := by
  have hdigits := digits?_paddedChars hw h []
  rwa [List.append_nil] at hdigits

end Text

end Marshal
