import Marshal.Proofs.Text.Words
import Marshal.Proofs.WireEnum.Bits

/-!
What a list of flags is read as: the union of the bits of its tokens, as far as these are known. So
a list read in two parts is read as the union of both, and only the set of its known tokens counts.
-/

namespace Marshal

namespace WireEnum

variable {V : Type} {e : WireEnum V} {f : FlagBits V}

/-! ### Tokens -/

theorem tokens_eq (f : FlagBits V) (raw : String) :
    tokens f raw = (Text.words f.delimiter raw.toList).map String.ofList := by
  simp only [tokens, Text.words, List.filter_map, List.map_map, Function.comp_def,
    Text.isEmpty_ofList]

theorem tokens_trim (f : FlagBits V) (raw : String) : tokens f (Text.trim raw) = tokens f raw := by
  rw [tokens_eq, tokens_eq, Text.trim, String.toList_ofList, Text.words_trimChars]

theorem tokens_append (f : FlagBits V) (a b : String) :
    tokens f (a ++ String.singleton f.delimiter ++ b) = tokens f a ++ tokens f b := by
  have hchars : (a ++ String.singleton f.delimiter ++ b).toList =
      a.toList ++ f.delimiter :: b.toList := by
    simp [String.toList_append]
  rw [tokens_eq, hchars, Text.words_append, List.map_append, tokens_eq, tokens_eq]

/-- The tokens of pieces with delimiters between them are the pieces, but for blanks. -/
theorem tokens_intercalate {pieces : List String} (h : ∀ p ∈ pieces, f.delimiter ∉ p.toList) :
    tokens f ((String.singleton f.delimiter).intercalate pieces) =
      (pieces.map Text.trim).filter (!·.isEmpty) := by
  have hpieces : ∀ p ∈ pieces.map String.toList, f.delimiter ∉ p := by simpa using h
  rw [tokens_eq, String.toList_intercalate, String.toList_singleton, Text.words_intercalate hpieces]
  simp only [List.filter_map, List.map_map, Function.comp_def, Text.trim, Text.isEmpty_ofList]
  rfl

theorem tokens_eq_nil_of_trim {raw : String} (h : (Text.trim raw).isEmpty = true) :
    tokens f raw = [] := by
  rw [← tokens_trim, String.isEmpty_iff.mp h]
  rfl

/-! ### Bits -/

def bits? (e : WireEnum V) (f : FlagBits V) (raw : String) : Option UInt64 :=
  Bits.union? ((tokens f raw).filterMap (e.tokenBits? f))

theorem readFlags?_eq (raw : String) : e.readFlags? f raw = (e.bits? f raw).map f.ofBits := by
  rw [readFlags?, bits?]
  split
  · rename_i hnone
    rw [hnone]
    rfl
  · rename_i bits hne
    rw [Bits.union?_of_ne_nil hne]
    rfl

/-- What is read of a list of flags is what its bits are. -/
theorem read?_eq_bits? (hf : e.flags = some f) (raw : String) :
    e.read? raw = (e.bits? f raw).map f.ofBits := by
  simp only [read?, hf]
  split
  · rename_i hempty
    rw [bits?, tokens_eq_nil_of_trim hempty]
    rfl
  · rw [readFlags?_eq, bits?, tokens_trim, bits?]

theorem bits?_append (e : WireEnum V) (f : FlagBits V) (a b : String) :
    e.bits? f (a ++ String.singleton f.delimiter ++ b) =
      Option.merge (· ||| ·) (e.bits? f a) (e.bits? f b) := by
  rw [bits?, tokens_append, List.filterMap_append, Bits.union?_append, bits?, bits?]

/-- A token that stands for bits: the name of a member, or a number. -/
def Known (e : WireEnum V) (f : FlagBits V) (token : String) : Prop :=
  token ≠ "" ∧ (e.tokenBits? f token).isSome = true

theorem bits?_congr {a b : String}
    (h : ∀ t, e.Known f t → (t ∈ tokens f a ↔ t ∈ tokens f b)) : e.bits? f a = e.bits? f b := by
  have hne {t raw : String} (ht : t ∈ tokens f raw) : t ≠ "" := by
    have hfilter := (List.mem_filter.mp ht).2
    simpa [String.isEmpty_iff] using hfilter
  have hbits : ∀ s, s ∈ (tokens f a).filterMap (e.tokenBits? f) ↔
      s ∈ (tokens f b).filterMap (e.tokenBits? f) := by
    intro s
    simp only [List.mem_filterMap]
    refine exists_congr fun t => and_congr_left fun hs => ?_
    have hsome : (e.tokenBits? f t).isSome = true := by rw [hs]; rfl
    constructor
    · exact fun ht => (h t ⟨hne ht, hsome⟩).mp ht
    · exact fun ht => (h t ⟨hne ht, hsome⟩).mpr ht
  exact Bits.union?_congr hbits

/-- Two lists of flags with a delimiter between them are read as the union of what they are read as
by themselves, and as what the one is read as if the other is not read. Of the tokens in a list
nothing counts but which of those that stand for bits are there, whatever their order, their number,
the blanks around them and the tokens between them. -/
theorem read?_union (hf : e.flags = some f) (hbits : ∀ b, f.toBits (f.ofBits b) = b) :
    (∀ a b : String, e.read? (a ++ String.singleton f.delimiter ++ b) =
      Option.merge (fun v w => f.ofBits (f.toBits v ||| f.toBits w)) (e.read? a) (e.read? b)) ∧
    ∀ as bs : List String, (∀ p ∈ as ++ bs, f.delimiter ∉ p.toList) →
      (∀ t, e.Known f t → (t ∈ as.map Text.trim ↔ t ∈ bs.map Text.trim)) →
        e.read? ((String.singleton f.delimiter).intercalate as) =
          e.read? ((String.singleton f.delimiter).intercalate bs) := by
  constructor
  · intro a b
    rw [read?_eq_bits? hf, read?_eq_bits? hf, read?_eq_bits? hf, bits?_append]
    cases e.bits? f a <;> cases e.bits? f b <;> simp [hbits]
  · intro as bs hdelimiter hsame
    rw [read?_eq_bits? hf, read?_eq_bits? hf]
    refine congrArg (Option.map f.ofBits) (bits?_congr fun t ht => ?_)
    have has : ∀ p ∈ as, f.delimiter ∉ p.toList :=
      fun p hp => hdelimiter p (List.mem_append_left bs hp)
    have hbs : ∀ p ∈ bs, f.delimiter ∉ p.toList :=
      fun p hp => hdelimiter p (List.mem_append_right as hp)
    rw [tokens_intercalate has, tokens_intercalate hbs, List.mem_filter, List.mem_filter,
      hsame t ht]

def styles : WireEnum UInt64 where
  members := [
    { value := 0, name := "plain" },
    { value := 3, name := "Strong", wireName := some "bold-italic" },
    { value := 1, name := "bold" },
    { value := 2, name := "italic" },
    { value := 2, name := "slanted" },
    { value := 0x8000000000000000, name := "hidden" }]
  flags := some { toBits := id, ofBits := id, delimiter := ' ' }

theorem read?_union_styles :
    styles.read? ("Slanted" ++ " " ++ "  huge 0x1 BOLD-italic ") = some 3 ∧
    styles.read? (" ".intercalate ["4", "bold"]) =
      styles.read? (" ".intercalate ["bold\t", "", "huge", "4", "bold"]) := by
  have h := read?_union (e := styles) rfl fun _ => rfl
  refine ⟨(h.1 "Slanted" "  huge 0x1 BOLD-italic ").trans (by decide +kernel), ?_⟩
  refine h.2 ["4", "bold"] ["bold\t", "", "huge", "4", "bold"] (by decide) fun t ht => ?_
  have htrim : (["bold\t", "", "huge", "4", "bold"].map Text.trim) =
      ["bold", "", "huge", "4", "bold"] := by decide
  have htrim' : (["4", "bold"].map Text.trim) = ["4", "bold"] := by decide
  have hhuge : t ≠ "huge" := by
    rintro rfl
    exact absurd ht.2 (by decide)
  rw [htrim, htrim']
  simpa [ht.1, hhuge] using Or.inr

end WireEnum

end Marshal
