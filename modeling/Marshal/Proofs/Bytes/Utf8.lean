import Mathlib.Tactic.SplitIfs
import Marshal.Bytes

/-!
Texts in UTF-8. The lossy reader loses nothing of the bytes that spell a text.
-/

namespace Marshal.Bytes

theorem ofString_eq (s : String) : ofString s = s.toList.flatMap String.utf8EncodeChar := by
  rw [ofString, String.toUTF8, ← String.utf8Encode_toList, List.utf8Encode, List.data_toByteArray]

theorem ofString_ofList (cs : List Char) :
    ofString (String.ofList cs) = cs.flatMap String.utf8EncodeChar := by
  rw [ofString_eq, String.toList_ofList]

theorem ofString_append (s t : String) : ofString (s ++ t) = ofString s ++ ofString t := by
  simp [ofString_eq]

/-! ### The reader, byte by byte -/

section

variable {n lo hi got : Nat} {b : UInt8} (bs : Bytes)

theorem lossyFrom_start (b : UInt8) :
    lossyFrom .start (b :: bs) =
      (Pending.lead b.toNat).1 ++ lossyFrom (Pending.lead b.toNat).2 bs := rfl

/-- A byte between the first one and the last one of a character. -/
theorem lossyFrom_tail (h : lo ≤ b.toNat ∧ b.toNat ≤ hi) :
    lossyFrom (.tail (n + 2) lo hi got) (b :: bs) =
      lossyFrom (.tail (n + 1) 0x80 0xBF (got * 64 + b.toNat % 64)) bs := by
  simp [lossyFrom, Pending.next, h]

/-- The last byte of a character. -/
theorem lossyFrom_last (h : lo ≤ b.toNat ∧ b.toNat ≤ hi) :
    lossyFrom (.tail 1 lo hi got) (b :: bs) =
      Char.ofNat (got * 64 + b.toNat % 64) :: lossyFrom .start bs := by
  simp [lossyFrom, Pending.next, h]

/-- The first of two bytes. -/
theorem lead_two (h : 2 ≤ n) (h' : n < 32) :
    Pending.lead (n + 192) = ([], .tail 1 0x80 0xBF n) := by
  have hmod : (n + 192) % 32 = n := by omega
  rw [Pending.lead, if_neg (by omega), if_pos (by omega), hmod]

/-- The first of three bytes. What may come next is narrower where the character could be shorter
and where it could be a surrogate. -/
theorem lead_three (h : n < 16) :
    Pending.lead (n + 224) =
      ([], .tail 2 (if n = 0 then 0xA0 else 0x80) (if n = 13 then 0x9F else 0xBF) n) := by
  by_cases h0 : n = 0
  · rw [h0]
    rfl
  · by_cases h13 : n = 13
    · rw [h13]
      rfl
    · have hmod : (n + 224) % 16 = n := by omega
      rw [Pending.lead, if_neg (by omega), if_neg (by omega), if_neg (by omega),
        if_neg (by omega), if_pos (by omega), hmod, if_neg h0, if_neg h13]

/-- The first of four bytes. What may come next is narrower where the character could be shorter
and where it could be beyond the last one. -/
theorem lead_four (h : n < 5) :
    Pending.lead (n + 240) =
      ([], .tail 3 (if n = 0 then 0x90 else 0x80) (if n = 4 then 0x8F else 0xBF) n) := by
  by_cases h0 : n = 0
  · rw [h0]
    rfl
  · by_cases h4 : n = 4
    · rw [h4]
      rfl
    · have hmod : (n + 240) % 8 = n := by omega
      rw [Pending.lead, if_neg (by omega), if_neg (by omega), if_neg (by omega),
        if_neg (by omega), if_neg (by omega), if_neg (by omega), if_pos (by omega), hmod,
        if_neg h0, if_neg h4]

end

/-! ### Characters of each length -/

section

variable {v : Nat} (bs : Bytes)

theorem toNat_ofNat_of_lt {k : Nat} (h : k < 256) : (UInt8.ofNat k).toNat = k := by
  rw [UInt8.toNat_ofNat', Nat.mod_eq_of_lt h]

theorem lossyFrom_one (h : v < 0x80) :
    lossyFrom .start (UInt8.ofNat v :: bs) = Char.ofNat v :: lossyFrom .start bs := by
  rw [lossyFrom_start, toNat_ofNat_of_lt (by omega), Pending.lead, if_pos h]
  rfl

theorem lossyFrom_two (h : 0x80 ≤ v) (h' : v < 0x800) :
    lossyFrom .start (UInt8.ofNat (v / 64 % 32 + 192) :: UInt8.ofNat (v % 64 + 128) :: bs) =
      Char.ofNat v :: lossyFrom .start bs := by
  rw [lossyFrom_start, toNat_ofNat_of_lt (by omega), lead_two (by omega) (by omega),
    List.nil_append, lossyFrom_last _ (by rw [toNat_ofNat_of_lt (by omega)]; omega),
    toNat_ofNat_of_lt (by omega)]
  congr 2
  omega

theorem lossyFrom_three (h : 0x800 ≤ v) (h' : v < 0xD800 ∨ 0xDFFF < v ∧ v < 0x10000) :
    lossyFrom .start (UInt8.ofNat (v / 4096 % 16 + 224) :: UInt8.ofNat (v / 64 % 64 + 128) ::
      UInt8.ofNat (v % 64 + 128) :: bs) = Char.ofNat v :: lossyFrom .start bs := by
  rw [lossyFrom_start, toNat_ofNat_of_lt (by omega), lead_three (by omega), List.nil_append,
    lossyFrom_tail _ (by rw [toNat_ofNat_of_lt (by omega)]; split_ifs <;> omega),
    lossyFrom_last _ (by rw [toNat_ofNat_of_lt (by omega)]; omega), toNat_ofNat_of_lt (by omega),
    toNat_ofNat_of_lt (by omega)]
  congr 2
  omega

theorem lossyFrom_four (h : 0x10000 ≤ v) (h' : v < 0x110000) :
    lossyFrom .start (UInt8.ofNat (v / 262144 % 8 + 240) :: UInt8.ofNat (v / 4096 % 64 + 128) ::
      UInt8.ofNat (v / 64 % 64 + 128) :: UInt8.ofNat (v % 64 + 128) :: bs) =
      Char.ofNat v :: lossyFrom .start bs := by
  rw [lossyFrom_start, toNat_ofNat_of_lt (by omega), lead_four (by omega), List.nil_append,
    lossyFrom_tail _ (by rw [toNat_ofNat_of_lt (by omega)]; split_ifs <;> omega),
    lossyFrom_tail _ (by rw [toNat_ofNat_of_lt (by omega)]; omega),
    lossyFrom_last _ (by rw [toNat_ofNat_of_lt (by omega)]; omega), toNat_ofNat_of_lt (by omega),
    toNat_ofNat_of_lt (by omega), toNat_ofNat_of_lt (by omega)]
  congr 2
  omega

end

theorem lossyFrom_utf8EncodeChar (c : Char) (bs : Bytes) :
    lossyFrom .start (String.utf8EncodeChar c ++ bs) = c :: lossyFrom .start bs := by
  have hbound : c.toNat < 0xD800 ∨ 0xDFFF < c.toNat ∧ c.toNat < 0x110000 := c.valid
  have hchar : Char.ofNat c.toNat = c := Char.ofNat_toNat c
  have hval : c.val.toNat = c.toNat := rfl
  simp only [String.utf8EncodeChar, hval]
  generalize c.toNat = v at hbound hchar
  rw [← hchar]
  split_ifs with h1 h2 h3
  · exact lossyFrom_one bs (by omega)
  · exact lossyFrom_two bs (by omega) (by omega)
  · exact lossyFrom_three bs (by omega) (by omega)
  · exact lossyFrom_four bs (by omega) (by omega)

theorem lossyFrom_flatMap (cs : List Char) :
    lossyFrom .start (cs.flatMap String.utf8EncodeChar) = cs := by
  induction cs with
  | nil => rfl
  | cons c cs ih => rw [List.flatMap_cons, lossyFrom_utf8EncodeChar, ih]

@[simp] theorem lossyText_ofString (s : String) : lossyText (ofString s) = s := by
  rw [lossyText, ofString_eq, lossyFrom_flatMap, String.ofList_toList]

/-! ### Bytes of ASCII -/

/-- A byte of ASCII is a character by itself. -/
theorem utf8EncodeChar_of_mem {b : UInt8} (hb : b.toNat < 128) {c : Char}
    (h : b ∈ String.utf8EncodeChar c) : String.utf8EncodeChar c = [b] ∧ c.toNat = b.toNat := by
  have hval : c.val.toNat = c.toNat := rfl
  rw [String.utf8EncodeChar, hval] at h ⊢
  split_ifs at h ⊢ with h1 h2 h3
  · obtain rfl := List.mem_singleton.mp h
    exact ⟨rfl, (toNat_ofNat_of_lt (by omega)).symm⟩
  all_goals
    simp only [List.mem_cons, List.not_mem_nil, or_false] at h
    rcases h with rfl | rfl | rfl | rfl <;> rw [toNat_ofNat_of_lt (by omega)] at hb <;> omega

section

variable {b : UInt8} (hb : b.toNat < 128) {d : Char} (hd : d.toNat = b.toNat)
include hb hd

theorem utf8EncodeChar_eq_singleton : String.utf8EncodeChar d = [b] := by
  have hval : d.val.toNat = d.toNat := rfl
  rw [String.utf8EncodeChar, hval, if_pos (by omega), hd, UInt8.ofNat_toNat]

theorem mem_utf8EncodeChar_iff (c : Char) : b ∈ String.utf8EncodeChar c ↔ c = d := by
  constructor
  · intro h
    rw [← Char.ofNat_toNat c, ← Char.ofNat_toNat d, (utf8EncodeChar_of_mem hb h).2, hd]
  · rintro rfl
    rw [utf8EncodeChar_eq_singleton hb hd]
    exact List.mem_singleton_self b

theorem mem_ofString_iff (s : String) : b ∈ ofString s ↔ d ∈ s.toList := by
  simp [ofString_eq, List.mem_flatMap, mem_utf8EncodeChar_iff hb hd]

theorem cons_prefix_utf8EncodeChar (c : Char) (t bs : Bytes) :
    b :: t <+: String.utf8EncodeChar c ++ bs ↔ c = d ∧ t <+: bs := by
  rw [← mem_utf8EncodeChar_iff hb hd]
  cases hc : String.utf8EncodeChar c with
  | nil => exact absurd hc String.utf8EncodeChar_ne_nil
  | cons x xs =>
      rw [List.cons_append, List.cons_prefix_cons]
      constructor
      · rintro ⟨rfl, ht⟩
        have hmem : b ∈ String.utf8EncodeChar c := by simp [hc]
        obtain ⟨-, rfl⟩ := List.cons.inj (hc.symm.trans (utf8EncodeChar_of_mem hb hmem).1)
        exact ⟨List.mem_cons_self, ht⟩
      · rintro ⟨hmem, ht⟩
        obtain ⟨rfl, rfl⟩ := List.cons.inj (hc.symm.trans (utf8EncodeChar_of_mem hb (hc ▸ hmem)).1)
        exact ⟨rfl, ht⟩

theorem cons_infix_utf8EncodeChar (c : Char) (t bs : Bytes) :
    b :: t <:+: String.utf8EncodeChar c ++ bs ↔ c = d ∧ t <+: bs ∨ b :: t <:+: bs := by
  by_cases hc : c = d
  · rw [hc, utf8EncodeChar_eq_singleton hb hd, List.singleton_append, List.infix_cons_iff,
      List.cons_prefix_cons]
    simp
  · have hnot : b ∉ String.utf8EncodeChar c := fun h => hc ((mem_utf8EncodeChar_iff hb hd c).mp h)
    simp only [hc, false_and, false_or]
    generalize String.utf8EncodeChar c = xs at hnot
    induction xs with
    | nil => rfl
    | cons x xs ih =>
        rw [List.mem_cons, not_or] at hnot
        rw [List.cons_append, List.infix_cons_iff, List.cons_prefix_cons]
        simp only [hnot.1, false_and, false_or]
        exact ih hnot.2

end

/-- The line ends of a text are where its bytes have them. -/
theorem lineEnd_infix_ofString (s : String) :
    [13, 10] <:+: ofString s ↔ ['\r', '\n'] <:+: s.toList := by
  have hprefix (cs : List Char) :
      [10] <+: cs.flatMap String.utf8EncodeChar ↔ ['\n'] <+: cs := by
    cases cs with
    | nil => simp
    | cons c cs =>
        rw [List.flatMap_cons, cons_prefix_utf8EncodeChar (by decide) (d := '\n') rfl,
          List.cons_prefix_cons, eq_comm]
        simp
  rw [ofString_eq]
  induction s.toList with
  | nil => simp
  | cons c cs ih =>
      rw [List.flatMap_cons, cons_infix_utf8EncodeChar (by decide) (d := '\r') rfl, hprefix,
        List.infix_cons_iff, List.cons_prefix_cons, eq_comm (a := c)]
      exact or_congr_right ih

end Marshal.Bytes
