import Marshal.Proofs.Codec
import Marshal.Proofs.WireEnum.Flags

/-!
What is written of a set of flags. The members whose names are taken have together all the bits that
any member within the set has: a member that is passed over adds none. So the names are read as the
union of the members within the set, which is the set itself if it is a union of members.
-/

namespace Marshal

namespace WireEnum

variable {V : Type} {e : WireEnum V} {f : FlagBits V}

def patterns (f : FlagBits V) (ms : List (EnumMember V)) : List UInt64 :=
  ms.map fun m => f.toBits m.value

/-- Those with bits, all of which are in `bits`. -/
def within (f : FlagBits V) (bits : UInt64) (ms : List (EnumMember V)) : List UInt64 :=
  (patterns f ms).filter fun b => b ≠ 0 ∧ b &&& bits = b

/-- All of `bits` that members within it have. -/
def declared (e : WireEnum V) (f : FlagBits V) (bits : UInt64) : UInt64 :=
  Bits.union (within f bits e.members)

theorem has_declared {bits : UInt64} {i : Nat} : Bits.Has (e.declared f bits) i ↔
    ∃ m ∈ e.members, f.toBits m.value &&& bits = f.toBits m.value ∧
      Bits.Has (f.toBits m.value) i := by
  rw [declared, Bits.has_union]
  constructor
  · rintro ⟨s, hs, hi⟩
    obtain ⟨hmem, hwithin⟩ := List.mem_filter.mp hs
    obtain ⟨m, hm, rfl⟩ := List.mem_map.mp hmem
    exact ⟨m, hm, (of_decide_eq_true hwithin).2, hi⟩
  · rintro ⟨m, hm, hwithin, hi⟩
    have hne : f.toBits m.value ≠ 0 := fun hzero => Bits.eq_zero_iff.mp hzero i hi
    have hmem : f.toBits m.value ∈ patterns f e.members := List.mem_map_of_mem hm
    exact ⟨_, List.mem_filter.mpr ⟨hmem, decide_eq_true ⟨hne, hwithin⟩⟩, hi⟩

/-- A set of bits is a union of members if members within it have all its bits. -/
theorem declared_eq_self_iff {b : UInt64} :
    e.declared f b = b ↔ ∃ ms, ms ⊆ e.members ∧ Bits.union (patterns f ms) = b := by
  constructor
  · intro h
    rw [declared, within, patterns, List.filter_map] at h
    exact ⟨_, List.filter_subset_self _, h⟩
  · rintro ⟨ms, hms, hunion⟩
    have hwithin : ∀ m ∈ ms, ∀ i, Bits.Has (f.toBits m.value) i → Bits.Has b i := by
      intro m hm i hi
      rw [← hunion, Bits.has_union]
      exact ⟨_, List.mem_map_of_mem hm, hi⟩
    refine Bits.ext fun i => has_declared.trans ⟨?_, fun hi => ?_⟩
    · rintro ⟨m, -, hsub, hi⟩
      exact Bits.and_eq_left_iff.mp hsub i hi
    · rw [← hunion, Bits.has_union] at hi
      obtain ⟨s, hs, hi⟩ := hi
      obtain ⟨m, hm, rfl⟩ := List.mem_map.mp hs
      exact ⟨m, hms hm, Bits.and_eq_left_iff.mpr (hwithin m hm), hi⟩

/-! ### The members that are taken -/

theorem within_cons (f : FlagBits V) (bits : UInt64) (m : EnumMember V) (ms : List (EnumMember V)) :
    within f bits (m :: ms) =
      if f.toBits m.value ≠ 0 ∧ f.toBits m.value &&& bits = f.toBits m.value then
        f.toBits m.value :: within f bits ms
      else within f bits ms := by
  rw [within, patterns, List.map_cons, List.filter_cons, within, patterns]
  simp only [decide_eq_true_eq]

/-- Members to take from a list where the bits `covered` are had already. -/
structure Covers (f : FlagBits V) (bits covered : UInt64) (ms taken : List (EnumMember V)) :
    Prop where
  subset : taken ⊆ ms
  names : coverFrom f bits covered ms = taken.map (·.writtenName)
  ne_zero : ∀ m ∈ taken, f.toBits m.value ≠ 0
  union_eq : covered ||| Bits.union (patterns f taken) = covered ||| Bits.union (within f bits ms)

theorem exists_covers (f : FlagBits V) (bits covered : UInt64) (ms : List (EnumMember V)) :
    ∃ taken, Covers f bits covered ms taken := by
  induction ms generalizing covered with
  | nil => exact ⟨[], List.nil_subset _, rfl, List.forall_mem_nil _, rfl⟩
  | cons m ms ih =>
      by_cases hskip : f.toBits m.value = 0 ∨ f.toBits m.value &&& bits ≠ f.toBits m.value ∨
          f.toBits m.value &&& ~~~covered = 0
      · obtain ⟨taken, h⟩ := ih covered
        refine ⟨taken, List.subset_cons_of_subset m h.subset, ?_, h.ne_zero, ?_⟩
        · rw [coverFrom, if_pos hskip, h.names]
        · rw [h.union_eq, within_cons]
          split
          · rename_i hwithin
            -- A member within the set is passed over only if it adds nothing.
            have hcovered : f.toBits m.value &&& ~~~covered = 0 := by
              rcases hskip with hzero | hout | hcovered
              · exact absurd hzero hwithin.1
              · exact absurd hwithin.2 hout
              · exact hcovered
            rw [Bits.union_cons, ← UInt64.or_assoc,
              Bits.or_eq_left_iff.mpr (Bits.and_not_eq_zero_iff.mp hcovered)]
          · rfl
      · obtain ⟨taken, h⟩ := ih (covered ||| f.toBits m.value)
        simp only [not_or, not_not] at hskip
        refine ⟨m :: taken, List.cons_subset_cons m h.subset, ?_, ?_, ?_⟩
        · rw [coverFrom, if_neg (by simpa using hskip), h.names, List.map_cons]
        · exact List.forall_mem_cons.mpr ⟨hskip.1, h.ne_zero⟩
        · have hunion := h.union_eq
          rw [UInt64.or_assoc, UInt64.or_assoc] at hunion
          rw [within_cons, if_pos ⟨hskip.1, hskip.2.1⟩, patterns, List.map_cons, Bits.union_cons,
            Bits.union_cons]
          exact hunion

/-- From all members, those are taken that make up what is declared. -/
theorem exists_taken (e : WireEnum V) (f : FlagBits V) (bits : UInt64) :
    ∃ taken, taken ⊆ e.members ∧ coverFrom f bits 0 e.members = taken.map (·.writtenName) ∧
      (taken = [] ↔ e.declared f bits = 0) ∧ Bits.union (patterns f taken) = e.declared f bits := by
  obtain ⟨taken, h⟩ := exists_covers f bits 0 e.members
  have hunion : Bits.union (patterns f taken) = e.declared f bits := by
    have hor := h.union_eq
    rwa [UInt64.zero_or, UInt64.zero_or] at hor
  refine ⟨taken, h.subset, h.names, ?_, hunion⟩
  rw [← hunion]
  cases taken with
  | nil => exact iff_of_true rfl rfl
  | cons m taken =>
      refine iff_of_false (List.cons_ne_nil m taken) fun hzero => ?_
      rw [patterns, List.map_cons, Bits.union_cons, UInt64.or_eq_zero_iff] at hzero
      exact h.ne_zero m List.mem_cons_self hzero.1

/-! ### Names in a list of flags -/

/-- The names can stand in a list of flags, and each is found for a member with its bits. -/
structure Legible (e : WireEnum V) (f : FlagBits V) : Prop where
  ne_empty : ∀ m ∈ e.members, m.writtenName ≠ ""
  trim_eq : ∀ m ∈ e.members, Text.trim m.writtenName = m.writtenName
  undelimited : ∀ m ∈ e.members, f.delimiter ∉ m.writtenName.toList
  found : ∀ m ∈ e.members, (e.find? m.writtenName).map f.toBits = some (f.toBits m.value)

namespace Legible

variable {ms : List (EnumMember V)}

theorem tokens_names (h : e.Legible f) (hms : ms ⊆ e.members) :
    tokens f ((String.singleton f.delimiter).intercalate (ms.map (·.writtenName))) =
      ms.map (·.writtenName) := by
  have hundelimited : ∀ p ∈ ms.map (·.writtenName), f.delimiter ∉ p.toList :=
    List.forall_mem_map.mpr fun m hm => h.undelimited m (hms hm)
  have htrim : (ms.map (·.writtenName)).map Text.trim = ms.map (·.writtenName) := by
    rw [List.map_map]
    exact List.map_congr_left fun m hm => h.trim_eq m (hms hm)
  rw [tokens_intercalate hundelimited, htrim, List.filter_eq_self]
  refine List.forall_mem_map.mpr fun m hm => ?_
  simpa [String.isEmpty_iff] using h.ne_empty m (hms hm)

theorem tokenBits?_name (h : e.Legible f) {m : EnumMember V} (hm : m ∈ e.members) :
    e.tokenBits? f m.writtenName = some (f.toBits m.value) := by
  obtain ⟨v, hv, hbits⟩ := Option.map_eq_some_iff.mp (h.found m hm)
  rw [tokenBits?, hv, ← hbits]

/-- Names of members are read as the union of these. -/
theorem bits?_names (h : e.Legible f) (hms : ms ⊆ e.members) (hne : ms ≠ []) :
    e.bits? f ((String.singleton f.delimiter).intercalate (ms.map (·.writtenName))) =
      some (Bits.union (patterns f ms)) := by
  have hbits : (ms.map (·.writtenName)).filterMap (e.tokenBits? f) = patterns f ms := by
    rw [List.filterMap_map, patterns, ← List.filterMap_eq_map]
    exact List.filterMap_congr fun m hm => h.tokenBits?_name (hms hm)
  rw [bits?, h.tokens_names hms, hbits, Bits.union?_of_ne_nil (by simpa [patterns] using hne)]

end Legible

/-! ### What is written is read -/

variable [DecidableEq V]

theorem write?_eq (hf : e.flags = some f) (v : V) : e.write? v = e.writeFlags? f v := by
  simp only [write?, hf]

theorem write?_zero_eq_none (hf : e.flags = some f) (hbits : ∀ b, f.toBits (f.ofBits b) = b)
    (h : ∀ m ∈ e.members, f.toBits m.value ≠ 0) : e.write? (f.ofBits 0) = none := by
  have hfind : (e.members.find? fun m => f.toBits m.value == 0) = none :=
    List.find?_eq_none.mpr fun m hm => by simpa using h m hm
  rw [write?_eq hf, writeFlags?, hbits, if_pos rfl, hfind, Option.map_none]

theorem exists_write?_zero (hf : e.flags = some f) (hbits : ∀ b, f.toBits (f.ofBits b) = b)
    (hlegible : e.Legible f) (h : ∃ m ∈ e.members, f.toBits m.value = 0) :
    ∃ m ∈ e.members, e.write? (f.ofBits 0) = some m.writtenName ∧
      e.read? m.writtenName = some (f.ofBits 0) := by
  obtain ⟨m, hfind⟩ : ∃ m, (e.members.find? fun m => f.toBits m.value == 0) = some m := by
    rw [← Option.isSome_iff_exists, List.find?_isSome]
    simpa using h
  have hm := List.mem_of_find?_eq_some hfind
  have hzero : f.toBits m.value = 0 := by simpa using List.find?_some hfind
  have hread := hlegible.bits?_names (List.cons_subset.mpr ⟨hm, List.nil_subset _⟩)
    (List.cons_ne_nil m [])
  rw [List.map_singleton, String.intercalate_singleton, patterns, List.map_singleton,
    hzero] at hread
  refine ⟨m, hm, ?_, ?_⟩
  · rw [write?_eq hf, writeFlags?, hbits, if_pos rfl, hfind, Option.map_some]
  · rw [read?_eq_bits? hf, hread, Option.map_some]
    rfl

/-- A set with bits is written as names that are read as its declared bits, if it has any. -/
theorem write?_bind_read? (hf : e.flags = some f) (hbits : ∀ b, f.toBits (f.ofBits b) = b)
    (h : e.Legible f) {b : UInt64} (hb : b ≠ 0) :
    if e.declared f b = 0 then e.write? (f.ofBits b) = none
    else ∃ s, e.write? (f.ofBits b) = some s ∧ e.read? s = some (f.ofBits (e.declared f b)) := by
  obtain ⟨taken, hsub, hnames, hnil, hunion⟩ := exists_taken e f b
  rw [write?_eq hf, writeFlags?, hbits, if_neg hb, hnames]
  split
  · rename_i hzero
    rw [hnil.mpr hzero]
    rfl
  · rename_i hne
    have htaken : taken ≠ [] := mt hnil.mp hne
    obtain ⟨m, rest, hcons⟩ := List.exists_cons_of_ne_nil htaken
    refine ⟨(String.singleton f.delimiter).intercalate (taken.map (·.writtenName)), ?_, ?_⟩
    · rw [hcons, List.map_cons]
    · rw [read?_eq_bits? hf, h.bits?_names hsub htaken, Option.map_some, hunion]

theorem named_zero_iff (hf : e.flags = some f) (hbits : ∀ b, f.toBits (f.ofBits b) = b)
    (h : e.Legible f) : e.Named (f.ofBits 0) ↔ ∃ m ∈ e.members, f.toBits m.value = 0 := by
  constructor
  · intro hnamed
    by_contra hno
    have hnone := write?_zero_eq_none hf hbits fun m hm hzero => hno ⟨m, hm, hzero⟩
    rw [Named, hnone] at hnamed
    cases hnamed
  · intro hzero
    obtain ⟨m, -, hwrite, hread⟩ := exists_write?_zero hf hbits h hzero
    rw [Named, hwrite, Option.bind_some, hread]

theorem named_iff_of_ne_zero (hf : e.flags = some f) (hbits : ∀ b, f.toBits (f.ofBits b) = b)
    (h : e.Legible f) {b : UInt64} (hb : b ≠ 0) :
    e.Named (f.ofBits b) ↔ ∃ ms, ms ⊆ e.members ∧ Bits.union (patterns f ms) = b := by
  have hinjective := Function.LeftInverse.injective hbits
  have hwrite := write?_bind_read? hf hbits h hb
  rw [← declared_eq_self_iff, Named]
  split at hwrite
  · rename_i hzero
    rw [hwrite, hzero]
    exact iff_of_false (fun hnone => by cases hnone) hb.symm
  · obtain ⟨s, hs, hread⟩ := hwrite
    rw [hs, Option.bind_some, hread, Option.some_inj, hinjective.eq_iff]

/-- A flag enumeration with legible names keeps of a set of bits what its members can make of it. No
bits at all are written as a member without bits, if there is one. Other bits are written as names
that are read as the union of all members within them, unless there are none of these. So a set of
bits comes back if and only if it is a member without bits or a union of members with some. -/
theorem named_flags_iff (hf : e.flags = some f) (hbits : ∀ b, f.toBits (f.ofBits b) = b)
    (h : e.Legible f) :
    (if ∃ m ∈ e.members, f.toBits m.value = 0 then
      ∃ m ∈ e.members, e.write? (f.ofBits 0) = some m.writtenName ∧
        e.read? m.writtenName = some (f.ofBits 0)
    else e.write? (f.ofBits 0) = none) ∧
    ∀ b,
      (b ≠ 0 → if e.declared f b = 0 then e.write? (f.ofBits b) = none
        else ∃ s, e.write? (f.ofBits b) = some s ∧ e.read? s = some (f.ofBits (e.declared f b))) ∧
      (e.Named (f.ofBits b) ↔ b = 0 ∧ (∃ m ∈ e.members, f.toBits m.value = 0) ∨
        b ≠ 0 ∧ ∃ ms, ms ⊆ e.members ∧ Bits.union (patterns f ms) = b) := by
  refine ⟨?_, fun b => ⟨fun hb => write?_bind_read? hf hbits h hb, ?_⟩⟩
  · split
    · rename_i hzero
      exact exists_write?_zero hf hbits h hzero
    · rename_i hno
      exact write?_zero_eq_none hf hbits fun m hm hzero => hno ⟨m, hm, hzero⟩
  · by_cases hb : b = 0
    · simpa [hb] using named_zero_iff hf hbits h
    · simpa [hb] using named_iff_of_ne_zero hf hbits h hb

theorem styles_legible :
    styles.Legible { toBits := id, ofBits := id, delimiter := ' ' } := by
  refine ⟨?_, ?_, ?_, ?_⟩ <;> decide

theorem named_flags_iff_styles :
    (∃ s, styles.write? 0x800000000000000B = some s ∧ styles.read? s = some 0x8000000000000003) ∧
      styles.Named 0x8000000000000003 := by
  have h := named_flags_iff (e := styles) rfl (fun _ => rfl) styles_legible
  have hdeclared : styles.declared { toBits := id, ofBits := id, delimiter := ' ' }
      0x800000000000000B = 0x8000000000000003 := by decide
  constructor
  · have hread := (h.2 0x800000000000000B).1 (by decide)
    rwa [hdeclared, if_neg (by decide)] at hread
  · refine (h.2 0x8000000000000003).2.mpr (.inr ⟨by decide, ?_⟩)
    exact ⟨styles.members.filter fun m => m.value &&& 0x8000000000000003 = m.value,
      List.filter_subset_self _, by decide⟩

end WireEnum

end Marshal
