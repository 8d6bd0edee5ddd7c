import Mathlib.Data.Option.Basic
import Marshal.Bytes.Base64
import Marshal.Proofs.Text.Blank

/-!
Byte strings read back from Base64.
-/

namespace Marshal.Base64

theorem isBlank_digit (n : Nat) : Text.isBlank (digit n) = false := by
  have : ∀ k : Fin 64, Text.isBlank (digit k) = false := by decide +kernel
  have h := this ⟨n % 64, Nat.mod_lt _ (by decide)⟩
  simpa [digit] using h

theorem solid_encodeChars (b : Bytes) : Text.Solid (encodeChars b) := by
  have hpad : Text.isBlank '=' = false := by decide
  induction b using encodeChars.induct with
  | case1 => simp [encodeChars]
  | case2 a => simp [encodeChars, isBlank_digit, hpad]
  | case3 a b => simp [encodeChars, isBlank_digit, hpad]
  | case4 a b c rest ih => simp [encodeChars, isBlank_digit, ih]

/-- Four digits that are not the padding of the last group spell three bytes. -/
theorem decodeChars?_digits (i j k l : Nat) (cs : List Char) :
    decodeChars? (digit i :: digit j :: digit k :: digit l :: cs) =
      (decodeChars? cs).map fun rest =>
        UInt8.ofNat (i % 64 * 4 + j % 64 / 16) :: UInt8.ofNat (j % 64 % 16 * 16 + k % 64 / 4) ::
          UInt8.ofNat (k % 64 % 4 * 64 + l % 64) :: rest := by
  rw [decodeChars?]
  · simp only [value?_digit, Option.bind_eq_bind, Option.bind_some, Option.pure_def]
    cases decodeChars? cs <;> rfl
  all_goals simp [digit_ne_pad]

theorem decodeChars?_encodeChars (b : Bytes) : decodeChars? (encodeChars b) = some b := by
  -- The writer takes three bytes at a time. A last group of one or two leaves bits of its last
  -- digit unused, and the reader checks that they are zero.
  induction b using encodeChars.induct with
  | case1 => rfl
  | case2 a =>
      have ha := a.toNat_lt
      have hunused : a.toNat % 4 * 16 % 64 % 16 = 0 := by omega
      have hbyte : a.toNat / 4 % 64 * 4 + a.toNat % 4 * 16 % 64 / 16 = a.toNat := by omega
      rw [encodeChars, decodeChars?]
      simp only [value?_digit, hunused, hbyte, Option.bind_eq_bind, Option.bind_some, guard,
        if_true, UInt8.ofNat_toNat]
      rfl
  | case3 a b =>
      have ha := a.toNat_lt
      have hb := b.toNat_lt
      have hunused : b.toNat % 16 * 4 % 64 % 4 = 0 := by omega
      have hfirst : a.toNat / 4 % 64 * 4 + (a.toNat % 4 * 16 + b.toNat / 16) % 64 / 16 =
          a.toNat := by omega
      have hsecond : (a.toNat % 4 * 16 + b.toNat / 16) % 64 % 16 * 16 +
          b.toNat % 16 * 4 % 64 / 4 = b.toNat := by omega
      rw [encodeChars, decodeChars?]
      · simp only [value?_digit, hunused, hfirst, hsecond, Option.bind_eq_bind, Option.bind_some,
          guard, if_true, UInt8.ofNat_toNat]
        rfl
      · simp [digit_ne_pad]
  | case4 a b c rest ih =>
      have ha := a.toNat_lt
      have hb := b.toNat_lt
      have hc := c.toNat_lt
      have hfirst : a.toNat / 4 % 64 * 4 + (a.toNat % 4 * 16 + b.toNat / 16) % 64 / 16 =
          a.toNat := by omega
      have hsecond : (a.toNat % 4 * 16 + b.toNat / 16) % 64 % 16 * 16 +
          (b.toNat % 16 * 4 + c.toNat / 64) % 64 / 4 = b.toNat := by omega
      have hthird : (b.toNat % 16 * 4 + c.toNat / 64) % 64 % 4 * 64 + c.toNat % 64 =
          c.toNat := by omega
      rw [encodeChars, decodeChars?_digits, ih, Option.map_some, hfirst, hsecond, hthird]
      simp only [UInt8.ofNat_toNat]

/-- Every byte string comes back from its text. -/
theorem decode?_encode (b : Bytes) : decode? (encode b) = some b := by
  rw [decode?, encode, String.toList_ofList, decodeChars?_encodeChars]

end Marshal.Base64
