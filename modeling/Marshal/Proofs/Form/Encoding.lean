import Mathlib.Data.List.Basic
import Marshal.Form.Encoding
import Marshal.Proofs.Bytes.Utf8

/-!
Pairs that are written as a form are read back as they were, whatever their characters.
-/

namespace Marshal.Form

/-! ### One byte -/

def code (b : UInt8) : Bytes :=
  (encodeByte b).flatMap String.utf8EncodeChar

/-- How bytes are written: as they are, as a plus sign, or as two digits. -/
theorem code_cases (b : UInt8) :
    (code b = [b] ∧ b ≠ 0x2B ∧ b ≠ 0x25) ∨ (code b = [0x2B] ∧ b = 0x20) ∨
      ∃ digits : Bytes, digits.length = 2 ∧ code b = 0x25 :: digits ∧ escaped? digits = some b := by
  have hall : ∀ n : Fin 256, (code (.ofNat n) = [.ofNat n] ∧ UInt8.ofNat n ≠ 0x2B ∧
      UInt8.ofNat n ≠ 0x25) ∨ (code (.ofNat n) = [0x2B] ∧ UInt8.ofNat n = 0x20) ∨
      ((code (.ofNat n)).tail.length = 2 ∧ code (.ofNat n) = 0x25 :: (code (.ofNat n)).tail ∧
        escaped? (code (.ofNat n)).tail = some (.ofNat n)) := by decide +kernel
  have hb := hall ⟨b.toNat, b.toNat_lt⟩
  rw [UInt8.ofNat_toNat] at hb
  exact hb.imp_right (Or.imp_right fun h => ⟨_, h⟩)

/-- The separators do not occur in what stands for a byte. -/
theorem ne_separator_of_mem_code {b x : UInt8} (h : x ∈ code b) : x ≠ 0x26 ∧ x ≠ 0x3D := by
  have hall : ∀ n : Fin 256, (code (.ofNat n)).all fun x => x ≠ 0x26 ∧ x ≠ 0x3D := by decide +kernel
  have hb := hall ⟨b.toNat, b.toNat_lt⟩
  rw [UInt8.ofNat_toNat, List.all_eq_true] at hb
  exact of_decide_eq_true (hb x h)

theorem decodeFrom_code (b : UInt8) (bs : Bytes) :
    decodeFrom 0 (code b ++ bs) = b :: decodeFrom 0 bs := by
  rcases code_cases b with ⟨hcode, hplus, hpercent⟩ | ⟨hcode, rfl⟩ | ⟨digits, hlen, hcode, hb⟩
  · rw [hcode, List.singleton_append, decodeFrom, if_neg hplus, if_neg hpercent]
  · rw [hcode]
    rfl
  · obtain ⟨hi, lo, rfl⟩ := List.length_eq_two.mp hlen
    have hescaped : escaped? (hi :: lo :: bs) = some b := hb
    rw [hcode]
    simp [decodeFrom, hescaped]

theorem decodeBytes_flatMap_code (bs : Bytes) : decodeBytes (bs.flatMap code) = bs := by
  rw [decodeBytes]
  induction bs with
  | nil => rfl
  | cons b bs ih => rw [List.flatMap_cons, decodeFrom_code, ih]

/-! ### Names and values -/

def textBytes (s : String) : Bytes :=
  (Bytes.ofString s).flatMap code

theorem flatMap_encodeChars (s : String) :
    (encodeChars s).flatMap String.utf8EncodeChar = textBytes s :=
  List.flatMap_assoc

theorem decodeText_textBytes (s : String) : decodeText (textBytes s) = s := by
  rw [decodeText, textBytes, decodeBytes_flatMap_code, Bytes.lossyText_ofString]

theorem ne_separator_of_mem_textBytes {s : String} {x : UInt8} (h : x ∈ textBytes s) :
    x ≠ 0x26 ∧ x ≠ 0x3D := by
  obtain ⟨b, -, hx⟩ := List.mem_flatMap.mp h
  exact ne_separator_of_mem_code hx

/-! ### Pairs -/

def pairBytes (p : String × String) : Bytes :=
  textBytes p.1 ++ 0x3D :: textBytes p.2

theorem flatMap_pairChars (p : String × String) :
    (pairChars p).flatMap String.utf8EncodeChar = pairBytes p := by
  have heq : String.utf8EncodeChar '=' = [0x3D] := rfl
  rw [pairChars, List.flatMap_append, List.flatMap_cons, flatMap_encodeChars, flatMap_encodeChars,
    heq]
  rfl

theorem decodePair_pairBytes (p : String × String) : decodePair (pairBytes p) = p := by
  have hname : ∀ x ∈ textBytes p.1, (x != 0x3D) = true := fun x hx => by
    simpa using (ne_separator_of_mem_textBytes hx).2
  rw [decodePair, pairBytes, List.takeWhile_append_of_pos hname, List.dropWhile_append_of_pos hname]
  simp [decodeText_textBytes]

theorem ampersand_not_mem_pairBytes (p : String × String) : 0x26 ∉ pairBytes p := by
  intro h
  rcases List.mem_append.mp h with h | h
  · exact (ne_separator_of_mem_textBytes h).1 rfl
  · rcases List.mem_cons.mp h with h | h
    · cases h
    · exact (ne_separator_of_mem_textBytes h).1 rfl

theorem pairBytes_ne_nil (p : String × String) : pairBytes p ≠ [] := by
  simp [pairBytes]

/-! ### Whole forms -/

def bytes (pairs : Pairs) : Bytes :=
  Bytes.ofString (String.ofList (encode pairs))

theorem bytes_eq (pairs : Pairs) : bytes pairs = [0x26].intercalate (pairs.map pairBytes) := by
  rw [bytes, Bytes.ofString_ofList, encode]
  induction pairs with
  | nil => rfl
  | cons p pairs ih =>
      cases pairs with
      | nil => simp [flatMap_pairChars]
      | cons q pairs =>
          have hamp : String.utf8EncodeChar '&' = [0x26] := rfl
          simp only [List.map_cons, List.intercalate_cons_cons, List.flatMap_append,
            flatMap_pairChars, List.flatMap_singleton, hamp] at ih ⊢
          rw [ih]

/-- A form says what was written. -/
theorem decode_bytes (pairs : Pairs) : decode (bytes pairs) = pairs := by
  cases pairs with
  | nil => rfl
  | cons p pairs =>
      have hsplit : (bytes (p :: pairs)).splitOnP (· == 0x26) = (p :: pairs).map pairBytes := by
        rw [bytes_eq]
        refine List.splitOn_intercalate 0x26 ?_ (List.cons_ne_nil _ _)
        exact List.forall_mem_map.mpr fun q _ => ampersand_not_mem_pairBytes q
      have hfilter : ((p :: pairs).map pairBytes).filter (!·.isEmpty) =
          (p :: pairs).map pairBytes := by
        rw [List.filter_eq_self]
        exact List.forall_mem_map.mpr fun q _ => by simp [pairBytes_ne_nil]
      rw [decode, pieces, hsplit, hfilter, List.map_map]
      simp [Function.comp_def, decodePair_pairBytes]

theorem bytes_eq_nil_iff {pairs : Pairs} : bytes pairs = [] ↔ pairs = [] := by
  constructor
  · intro h
    rw [← decode_bytes pairs, h]
    rfl
  · rintro rfl
    rfl

end Marshal.Form
