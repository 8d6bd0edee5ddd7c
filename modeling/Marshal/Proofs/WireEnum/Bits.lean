import Mathlib.Logic.Basic
import Marshal.WireEnum

/-!
Sets of bits, told apart by the bits they have: unions, and which sets lie within others.
-/

namespace Marshal

namespace Bits

def Has (b : UInt64) (i : Nat) : Prop :=
  b.toBitVec.getLsbD i = true

theorem ext {a b : UInt64} (h : ∀ i, Has a i ↔ Has b i) : a = b :=
  UInt64.toBitVec_inj.mp (BitVec.eq_of_getLsbD_eq fun i _ => Bool.eq_iff_iff.mpr (h i))

@[simp] theorem not_has_zero (i : Nat) : ¬Has 0 i := by
  simp [Has]

@[simp] theorem has_or {a b : UInt64} {i : Nat} : Has (a ||| b) i ↔ Has a i ∨ Has b i := by
  simp [Has]

@[simp] theorem has_and {a b : UInt64} {i : Nat} : Has (a &&& b) i ↔ Has a i ∧ Has b i := by
  simp [Has]

theorem lt_of_has {b : UInt64} {i : Nat} (h : Has b i) : i < 64 :=
  BitVec.lt_of_getLsbD h

theorem has_and_not {a b : UInt64} {i : Nat} : Has (a &&& ~~~b) i ↔ Has a i ∧ ¬Has b i := by
  rw [has_and]
  refine and_congr_right fun h => ?_
  simp [Has, lt_of_has h]

theorem eq_zero_iff {b : UInt64} : b = 0 ↔ ∀ i, ¬Has b i := by
  constructor
  · rintro rfl
    exact not_has_zero
  · exact fun h => ext fun i => iff_of_false (h i) (not_has_zero i)

theorem or_eq_left_iff {a b : UInt64} : a ||| b = a ↔ ∀ i, Has b i → Has a i := by
  constructor
  · intro h i hi
    rw [← h, has_or]
    exact .inr hi
  · exact fun h => ext fun i => has_or.trans (or_iff_left_of_imp (h i))

theorem and_eq_left_iff {a b : UInt64} : a &&& b = a ↔ ∀ i, Has a i → Has b i := by
  constructor
  · intro h i hi
    rw [← h, has_and] at hi
    exact hi.2
  · exact fun h => ext fun i => has_and.trans (and_iff_left_of_imp (h i))

/-- Nothing is left of a set when what it lies within is taken away. -/
theorem and_not_eq_zero_iff {a b : UInt64} : a &&& ~~~b = 0 ↔ ∀ i, Has a i → Has b i := by
  simp only [eq_zero_iff, has_and_not, not_and, not_not]

/-! ### Unions -/

def union (sets : List UInt64) : UInt64 :=
  sets.foldl (· ||| ·) 0

theorem has_foldl_or {sets : List UInt64} {b : UInt64} {i : Nat} :
    Has (sets.foldl (· ||| ·) b) i ↔ Has b i ∨ ∃ s ∈ sets, Has s i := by
  induction sets generalizing b with
  | nil => simp
  | cons s sets ih => simp [ih, or_assoc]

@[simp] theorem has_union {sets : List UInt64} {i : Nat} :
    Has (union sets) i ↔ ∃ s ∈ sets, Has s i := by
  simp [union, has_foldl_or]

theorem union_cons (s : UInt64) (sets : List UInt64) : union (s :: sets) = s ||| union sets := by
  refine ext fun i => ?_
  simp

theorem union_append (a b : List UInt64) : union (a ++ b) = union a ||| union b := by
  refine ext fun i => ?_
  simp [or_and_right, exists_or]

/-- Order and repetition make no difference. -/
theorem union_congr {a b : List UInt64} (h : ∀ s, s ∈ a ↔ s ∈ b) : union a = union b := by
  refine ext fun i => ?_
  simp [h]

def union? (sets : List UInt64) : Option UInt64 :=
  if sets = [] then none else some (union sets)

@[simp] theorem union?_nil : union? [] = none := rfl

theorem union?_of_ne_nil {sets : List UInt64} (h : sets ≠ []) : union? sets = some (union sets) :=
  if_neg h

theorem union?_append (a b : List UInt64) :
    union? (a ++ b) = Option.merge (· ||| ·) (union? a) (union? b) := by
  by_cases ha : a = []
  · rw [ha, List.nil_append, union?_nil, Option.merge_none_left]
  · by_cases hb : b = []
    · rw [hb, List.append_nil, union?_nil, Option.merge_none_right, union?_of_ne_nil ha]
    · rw [union?_of_ne_nil (List.append_ne_nil_of_left_ne_nil ha b), union?_of_ne_nil ha,
        union?_of_ne_nil hb, union_append, Option.merge_some_some]

theorem union?_congr {a b : List UInt64} (h : ∀ s, s ∈ a ↔ s ∈ b) : union? a = union? b := by
  have hnil : a = [] ↔ b = [] := by simp [List.eq_nil_iff_forall_not_mem, h]
  rw [union?, union?, union_congr h]
  exact if_congr hnil rfl rfl

end Bits

end Marshal
