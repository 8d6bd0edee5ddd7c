import Mathlib.Algebra.Group.Nat.Defs
import Marshal.Guid
import Marshal.Proofs.Text.Blank

/-!
Identifiers read back from their texts.
-/

namespace Marshal

theorem isBlank_hexDigit (n : Nat) : Text.isBlank (hexDigit n) = false := by
  have : ∀ k : Fin 16, Text.isBlank (Nat.digitChar k) = false := by decide
  exact this ⟨n % 16, Nat.mod_lt _ (by decide)⟩

namespace Guid

theorem hexNat?_append (cs : List Char) (v : Nat) :
    hexNat? (cs ++ [hexDigit v]) = (hexNat? cs).map (· * 16 + v % 16) := by
  rw [hexNat?, hexNat?, List.foldlM_append]
  simp only [List.foldlM_cons, List.foldlM_nil, hexValue?_hexDigit, Option.map_some]
  cases List.foldlM (fun n c => (hexValue? c).map (n * 16 + ·)) 0 cs <;> rfl

theorem hexNat?_hexRow (n v : Nat) : hexNat? (hexRow n v) = some (v % 16 ^ n) := by
  induction n generalizing v with
  | zero => simp [hexNat?, hexRow, Nat.mod_one]
  | succ n ih =>
      have hlast : v / 16 % 16 ^ n * 16 + v % 16 = v % 16 ^ (n + 1) := by
        rw [Nat.pow_succ', Nat.mod_mul, Nat.mul_comm, Nat.add_comm]
      rw [hexRow, hexNat?_append, ih, Option.map_some, hlast]

theorem ofDigits?_digits (g : Guid) : ofDigits? g.digits = some g := by
  have hbits : g.bits.toNat % 16 ^ 32 = g.bits.toNat := Nat.mod_eq_of_lt g.bits.isLt
  rw [ofDigits?, if_pos g.length_digits, digits, hexNat?_hexRow, hbits, Option.map_some,
    BitVec.ofNat_toNat, BitVec.setWidth_eq]

theorem length_hyphenate {cs : List Char} (h : cs.length = 32) : (hyphenate cs).length = 36 := by
  simp [hyphenate, h]

/-- The groups between the hyphens are the digits again. -/
theorem ofHyphenated?_hyphenate {cs : List Char} (h : cs.length = 32) :
    ofHyphenated? (hyphenate cs) = ofDigits? cs := by
  have hgroups : (hyphenate cs).take 8 ++ ((hyphenate cs).drop 9).take 4 ++
      ((hyphenate cs).drop 14).take 4 ++ ((hyphenate cs).drop 19).take 4 ++
      (hyphenate cs).drop 24 = cs := by
    -- From the last group to the first, each joins the rest of the digits behind it.
    have hgroup (n : Nat) : (cs.drop n).take 4 ++ cs.drop (n + 4) = cs.drop n := by
      rw [← List.drop_drop, List.take_append_drop]
    have hlast : (cs.drop 16).take 4 ++ cs.drop 20 = cs.drop 16 := hgroup 16
    have hthird : (cs.drop 12).take 4 ++ cs.drop 16 = cs.drop 12 := hgroup 12
    have hsecond : (cs.drop 8).take 4 ++ cs.drop 12 = cs.drop 8 := hgroup 8
    simp [hyphenate, List.drop_append, List.drop_take, h, hlast, hthird, hsecond]
  rw [ofHyphenated?]
  simp only [hgroups, if_true]

theorem solid_hexRow (n v : Nat) : Text.Solid (hexRow n v) := by
  induction n generalizing v with
  | zero => simp [hexRow]
  | succ n ih => simp [hexRow, ih, isBlank_hexDigit]

theorem solid_hyphenate (g : Guid) : Text.Solid (hyphenate g.digits) := by
  have hdigits : Text.Solid g.digits := solid_hexRow 32 _
  have htake {cs : List Char} (h : Text.Solid cs) (n : Nat) : Text.Solid (cs.take n) :=
    fun c hc => h c (List.mem_of_mem_take hc)
  have hdrop (n : Nat) : Text.Solid (g.digits.drop n) :=
    fun c hc => hdigits c (List.mem_of_mem_drop hc)
  have hhyphen : Text.isBlank '-' = false := by decide
  rw [hyphenate]
  simp [htake hdigits, htake (hdrop _), hdrop, hhyphen]

/-- Every identifier comes back from its text. -/
theorem ofString?_text (g : Guid) : ofString? g.text = some g := by
  have hlength := length_hyphenate g.length_digits
  rw [ofString?, text, String.toList_ofList, ofChars?, if_neg (by rw [hlength]; decide),
    if_pos hlength, ofHyphenated?_hyphenate g.length_digits, ofDigits?_digits]

end Guid

end Marshal
