import Marshal.Node
import Marshal.Proofs.Number.Digits
import Marshal.Proofs.Text.Case

/-!
Scalars that are spelled in texts. A string in a JSON document and a plain text of the same
characters are read with readers of their own; these agree but for booleans with blanks around them
and for the zero of a byte with a minus.
-/

namespace Marshal

/-! ### Whole numbers -/

/-- Only numbers that 64 bits can hold fit. -/
def Narrow {α : Type} (fit? : Int → Option α) : Prop :=
  ∀ i v, fit? i = some v → -9223372036854775808 ≤ i ∧ i < 9223372036854775808

theorem narrow_toUInt8? : Narrow toUInt8? := by
  intro i v h
  have hrange := (Option.ite_none_right_eq_some.mp h).1
  omega

theorem narrow_toInt8? : Narrow toInt8? := by
  intro i v h
  have hrange := (Option.ite_none_right_eq_some.mp h).1
  omega

theorem narrow_toInt32? : Narrow toInt32? := by
  intro i v h
  have hrange := (Option.ite_none_right_eq_some.mp h).1
  omega

/-- A number of fewer bits is read as it would be without a limit of 64 bits. -/
theorem Narrow.bind_readInt64? {α : Type} {fit? : Int → Option α} (hfit : Narrow fit?)
    (cs : List Char) :
    ((readInt64? cs).bind fun n => fit? n.toInt) = (readInt? cs).bind fit? := by
  rw [readInt64?, Option.bind_assoc]
  congr 1
  ext1 i
  rw [toInt64?]
  split
  · rename_i h
    rw [Option.bind_some, Int64.toInt_ofInt_of_le (by omega) (by omega)]
  · rename_i h
    rw [Option.bind_none]
    cases hv : fit? i with
    | none => rfl
    | some v =>
        have hrange := hfit i v hv
        omega

/-- A minus and after it nothing but zeros, one at least. -/
def MinusZero (cs : List Char) : Prop :=
  ∃ n, cs = '-' :: List.replicate (n + 1) '0'

theorem ofDigitChars_eq_zero_iff {ds : List Char} (h : ∀ c ∈ ds, c.isDigit = true) :
    Nat.ofDigitChars 10 ds 0 = 0 ↔ ∀ c ∈ ds, c = '0' := by
  induction ds with
  | nil => simp
  | cons c ds ih =>
      obtain ⟨hc, hds⟩ := List.forall_mem_cons.mp h
      have hzero : c.toNat - 48 = 0 ↔ c = '0' := by
        have hrange := Text.isDigit_iff.mp hc
        constructor
        · intro hsub
          have hval : c.toNat = '0'.toNat := by
            show c.toNat = 48
            omega
          exact Char.toNat_inj.mp hval
        · rintro rfl
          rfl
      have hpow : 10 ^ ds.length ≠ 0 := Nat.ne_of_gt (Nat.pow_pos (by decide))
      rw [Nat.ofDigitChars_cons, Nat.ofDigitChars_eq_ofDigitChars_zero, Nat.add_eq_zero_iff,
        ih hds, List.forall_mem_cons, ← hzero, Nat.mul_zero, Nat.zero_add, Nat.mul_eq_zero,
        or_iff_right hpow]
      rfl

theorem readDigits?_eq_zero_iff {ds : List Char} :
    readDigits? ds = some 0 ↔ ∃ n, ds = List.replicate (n + 1) '0' := by
  constructor
  · intro h
    obtain ⟨hne, hdigits⟩ := readDigits?_eq_some h
    rw [readDigits?_of_isDigit hne hdigits, Option.some.injEq,
      ofDigitChars_eq_zero_iff hdigits] at h
    obtain ⟨c, cs, rfl⟩ := List.exists_cons_of_ne_nil hne
    exact ⟨cs.length, List.eq_replicate_iff.mpr ⟨rfl, h⟩⟩
  · rintro ⟨n, rfl⟩
    have hdigits : ∀ c ∈ List.replicate (n + 1) '0', c.isDigit = true := by
      intro c hc
      rw [List.eq_of_mem_replicate hc]
      rfl
    rw [readDigits?_of_isDigit (by simp) hdigits, Nat.ofDigitChars_replicate_zero, Nat.mul_zero]

theorem readNat?_minus (ds : List Char) : readNat? ('-' :: ds) = none := by
  have hminus : isDigits ('-' :: ds) = false := rfl
  rw [readNat?, readDigits?, hminus]
  · rfl
  · simp

theorem readInt?_of_ne {cs : List Char} (h : ∀ ds, cs ≠ '-' :: ds) :
    readInt? cs = (readNat? cs).map Int.ofNat := by
  rw [readInt?]
  exact h

/-- Only with the zero of a byte does it matter that a byte has no minus. -/
theorem bind_readInt?_toUInt8?_iff {cs : List Char} :
    (readInt? cs).bind toUInt8? = readUInt8? cs ↔ ¬ MinusZero cs := by
  by_cases hminus : ∃ ds, cs = '-' :: ds
  · obtain ⟨ds, rfl⟩ := hminus
    have hzero : MinusZero ('-' :: ds) ↔ readDigits? ds = some 0 := by
      simp [MinusZero, readDigits?_eq_zero_iff]
    rw [hzero, readUInt8?, readNat?_minus, Option.bind_none, readInt?]
    cases hds : readDigits? ds with
    | none => simp
    | some n =>
        show toUInt8? (-(n : Int)) = none ↔ ¬ some n = some 0
        rw [toUInt8?]
        simp
        omega
  · have hplain : ∀ ds, cs ≠ '-' :: ds := fun ds h => hminus ⟨ds, h⟩
    have hne : ¬ MinusZero cs := by
      rintro ⟨n, h⟩
      exact hplain _ h
    rw [readInt?_of_ne hplain, readUInt8?]
    simp only [hne, not_false_eq_true, iff_true]
    cases readNat? cs <;> rfl

/-! ### Readings of a text -/

/-- A reading gives the value, or finds fault with what is there if there is none to give. -/
inductive Gives {α : Type} : Result (Option α) → Option α → Prop
  | value (v : α) : Gives (.ok (some v)) (some v)
  | fault (path : String) (cause : ParseFault) : Gives (.error (.parse path cause)) none

/-- Two readings end with the same value, or both find fault with what is there. -/
def SameEnd {α : Type} (r s : Result (Option α)) : Prop :=
  ∃ v, Gives r v ∧ Gives s v

theorem Gives.eq {α : Type} {r : Result (Option α)} {v w : Option α} (hv : Gives r v)
    (hw : Gives r w) : v = w := by
  cases hv <;> cases hw <;> rfl

theorem Gives.sameEnd_iff_eq {α : Type} {r s : Result (Option α)} {v w : Option α} (hr : Gives r v)
    (hs : Gives s w) : SameEnd r s ↔ v = w := by
  constructor
  · rintro ⟨u, hru, hsu⟩
    rw [hr.eq hru, hs.eq hsu]
  · rintro rfl
    exact ⟨v, hr, hs⟩

namespace Kind

def ofPlain? : (k : Kind) → String → Option k.Carrier
  | string, s => some s
  | k, s => k.ofTrimmed? (Text.trim s)

/-- What a string of a JSON document spells. A whole number is read with 64 bits first, and a
boolean with the blanks around it. -/
def ofString? : (k : Kind) → String → Option k.Carrier
  | bool, s => readBool? s
  | byte, s => (readInt64? (Text.trimChars s.toList)).bind fun n => toUInt8? n.toInt
  | sbyte, s => (readInt64? (Text.trimChars s.toList)).bind fun n => toInt8? n.toInt
  | int, s => (readInt64? (Text.trimChars s.toList)).bind fun n => toInt32? n.toInt
  | k, s => k.ofPlain? s

theorem gives_ofText (k : Kind) (path s : String) :
    Gives ((k.ofText path s).map some) (k.ofPlain? s) := by
  cases k with
  | string => exact .value s
  | _ =>
      simp only [ofText, ofPlain?]
      split
      · rename_i hv
        rw [hv]
        exact .value _
      · rename_i hv
        rw [hv]
        exact .fault path _

end Kind

namespace JsonNode

variable {n : JsonNode} {s : String}

theorem gives_integer? (hn : n.value = .string s) (wanted : Wanted) :
    Gives (n.integer? wanted) (readInt64? (Text.trimChars s.toList)) := by
  rw [integer?, hn]
  dsimp only
  cases readInt64? (Text.trimChars s.toList) with
  | none => exact .fault _ _
  | some i => exact .value i

theorem gives_narrow? {α : Type} (hn : n.value = .string s) (wanted : Wanted)
    (fit? : Int → Option α) :
    Gives (n.narrow? wanted fit?)
      ((readInt64? (Text.trimChars s.toList)).bind fun i => fit? i.toInt) := by
  have hinteger := gives_integer? hn wanted
  rw [narrow?]
  generalize readInt64? (Text.trimChars s.toList) = found at hinteger ⊢
  generalize n.integer? wanted = r at hinteger ⊢
  cases hinteger with
  | fault path cause => exact .fault path cause
  | value i =>
      dsimp only [bind, Except.bind, Option.bind]
      cases fit? i.toInt with
      | none => exact .fault _ _
      | some v => exact .value v

theorem gives_bool? (hn : n.value = .string s) : Gives n.bool? (Kind.readBool? s) := by
  rw [bool?, hn]
  dsimp only
  cases Kind.readBool? s with
  | none => exact .fault _ _
  | some b => exact .value b

theorem gives_double? (hn : n.value = .string s) :
    Gives n.double? (Double.ofChars? (Text.trimChars s.toList)) := by
  rw [double?, hn]
  dsimp only
  cases Double.ofChars? (Text.trimChars s.toList) with
  | none => exact .fault _ _
  | some x => exact .value x

/-- A string of a document is read as what it spells. -/
theorem gives_read? (hn : n.value = .string s) {k : Kind} (hk : k ≠ .float) :
    Gives (n.read? k) (k.ofString? s) := by
  have htext : n.text? = .ok (some s) := by rw [text?, hn]
  have htrim : Text.trimChars s.toList = (Text.trim s).toList := String.toList_ofList.symm
  have hword (j : Kind) : Gives (n.text?.bind fun t => j.ofText? n.path t) (j.ofPlain? s) := by
    rw [htext]
    exact j.gives_ofText n.path s
  cases k with
  | float => exact absurd rfl hk
  | string =>
      rw [read?, htext]
      exact .value s
  | bool => exact gives_bool? hn
  | byte => exact gives_narrow? hn _ _
  | sbyte => exact gives_narrow? hn _ _
  | int => exact gives_narrow? hn _ _
  | long =>
      have hread := gives_integer? hn .integer64
      rw [htrim] at hread
      exact hread
  | double =>
      have hread := gives_double? hn
      rw [htrim] at hread
      exact hread
  | decimal =>
      rw [read?, decimal?, hn]
      exact Kind.gives_ofText .decimal n.path s
  | guid => exact hword .guid
  | date => exact hword .date
  | time => exact hword .time
  | dateTime => exact hword .dateTime
  | timeSpan => exact hword .timeSpan
  | bytes => exact hword .bytes

end JsonNode

namespace Kind

def PaddedBool (s : String) : Prop :=
  Text.trim s ≠ s ∧ (readBool? (Text.trim s)).isSome

theorem trim_eq_self_of_readBool? {s : String} {b : Bool} (h : readBool? s = some b) :
    Text.trim s = s := by
  have hspelled : ∃ word : String, Text.Solid word.toList ∧ Text.eqIgnoringCase s word = true := by
    rw [readBool?] at h
    split at h
    · exact ⟨"true", by decide, ‹_›⟩
    · split at h
      · exact ⟨"false", by decide, ‹_›⟩
      · cases h
  obtain ⟨word, hword, hs⟩ := hspelled
  have hsolid : Text.Solid s.toList := by
    intro c hc
    rw [← Text.isBlank_toLower]
    have hlower := List.mem_map_of_mem (f := Char.toLower) hc
    rw [Text.eqIgnoringCase_iff.mp hs] at hlower
    obtain ⟨d, hd, hdc⟩ := List.mem_map.mp hlower
    rw [← hdc, Text.isBlank_toLower]
    exact hword d hd
  rw [Text.trim, Text.trimChars_of_solid hsolid, String.ofList_toList]

theorem ofString?_bool_iff {s : String} :
    bool.ofString? s = bool.ofPlain? s ↔ ¬ PaddedBool s := by
  show readBool? s = readBool? (Text.trim s) ↔ _
  constructor
  · rintro h ⟨hblanks, hbool⟩
    obtain ⟨b, hb⟩ := Option.isSome_iff_exists.mp hbool
    exact hblanks (trim_eq_self_of_readBool? (h.trans hb))
  · intro h
    by_cases hblanks : Text.trim s = s
    · rw [hblanks]
    · have hnone : readBool? (Text.trim s) = none :=
        Option.not_isSome_iff_eq_none.mp fun hbool => h ⟨hblanks, hbool⟩
      rw [hnone]
      cases hs : readBool? s with
      | none => rfl
      | some b => exact absurd (trim_eq_self_of_readBool? hs) hblanks

theorem ofString?_byte_iff {s : String} :
    byte.ofString? s = byte.ofPlain? s ↔ ¬ MinusZero (Text.trimChars s.toList) := by
  have hplain : byte.ofPlain? s = readUInt8? (Text.trimChars s.toList) :=
    congrArg readUInt8? String.toList_ofList
  rw [hplain, ← bind_readInt?_toUInt8?_iff, ← narrow_toUInt8?.bind_readInt64?]
  rfl

theorem ofString?_eq {k : Kind} (hbool : k ≠ bool) (hbyte : k ≠ byte) (s : String) :
    k.ofString? s = k.ofPlain? s := by
  cases k with
  | bool => exact absurd rfl hbool
  | byte => exact absurd rfl hbyte
  | sbyte =>
      have hplain : sbyte.ofPlain? s = readInt8? (Text.trimChars s.toList) :=
        congrArg readInt8? String.toList_ofList
      rw [hplain]
      exact narrow_toInt8?.bind_readInt64? _
  | int =>
      have hplain : int.ofPlain? s = readInt32? (Text.trimChars s.toList) :=
        congrArg readInt32? String.toList_ofList
      rw [hplain]
      exact narrow_toInt32?.bind_readInt64? _
  | _ => rfl

end Kind

namespace Node

/-- A string of a document and a plain text of the same characters are read alike, as a scalar of
any kind but the single one, unless it is a boolean with blanks around it or the zero of a byte with
a minus. -/
theorem sameEnd_iff (n : JsonNode) (s : String) {k : Kind} (hk : k ≠ .float) :
    SameEnd ((json { n with value := .string s }).read? k) ((text s).read? k) ↔
      ¬ (k = .bool ∧ Kind.PaddedBool s) ∧
        ¬ (k = .byte ∧ MinusZero (Text.trimChars s.toList)) := by
  have hjson : Gives ((json { n with value := .string s }).read? k) (k.ofString? s) :=
    JsonNode.gives_read? rfl hk
  have htext : Gives ((text s).read? k) (k.ofPlain? s) := k.gives_ofText "" s
  rw [hjson.sameEnd_iff_eq htext]
  by_cases hbool : k = .bool
  · subst hbool
    rw [Kind.ofString?_bool_iff]
    simp
  · by_cases hbyte : k = .byte
    · subst hbyte
      rw [Kind.ofString?_byte_iff]
      simp
    · simp [hbool, hbyte, Kind.ofString?_eq hbool hbyte]

/-- A plus, zeros in front and blanks of two kinds do no harm to a byte. -/
theorem sameEnd_iff_plus :
    Kind.byte ≠ .float ∧
      SameEnd ((json { value := .string "\t+007\u00a0" }).read? .byte)
        ((text "\t+007\u00a0").read? .byte) := by
  refine ⟨by decide, (sameEnd_iff { value := .null } "\t+007\u00a0" (by decide)).mpr ⟨?_, ?_⟩⟩
  · simp
  · rintro ⟨-, n, h⟩
    have hplus : Text.trimChars "\t+007\u00a0".toList = '+' :: ['0', '0', '7'] := by decide
    rw [hplus] at h
    cases h

/-- With blanks around it a boolean is one in a plain text only, and with a minus the zero of a byte
is one in a document only. -/
theorem read?_padded_bool_minus_zero :
    (json { value := .string " true" }).read? .bool =
        .error (.parse "" (.expected .boolean .string)) ∧
      (text " true").read? .bool = .ok (some true) ∧
      (json { value := .string "-0" }).read? .byte = .ok (some 0) ∧
      (text "-0").read? .byte = .error (.parse "" (.expected .unsignedByte (.text "-0"))) := by
  refine ⟨rfl, ?_, ?_, ?_⟩ <;> decide +kernel

end Node

end Marshal
