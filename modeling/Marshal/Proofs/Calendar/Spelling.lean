import Mathlib.Algebra.GroupWithZero.Nat
import Mathlib.Algebra.Order.BigOperators.Group.List
import Mathlib.Algebra.Order.Group.Nat
import Mathlib.Data.Option.Basic
import Marshal.Calendar.Duration
import Marshal.Proofs.Number.Digits

/-!
The texts that spell a length of time, and what is read there. Units may come in any order and more
than once, and letters may be of either case. Every component is read as what it is worth unless
that alone is no duration, and so is the sum; as nothing is below zero, a component that is out of
range takes the sum with it, and a text is refused only if the whole of it is too long.
-/

namespace Marshal

namespace Duration

/-! ### Spellings -/

structure Digits where
  chars : List Char
  ne_nil : chars ≠ [] := by decide
  isDigit : ∀ c ∈ chars, c.isDigit = true := by simp

def Digits.value (n : Digits) : Nat :=
  Nat.ofDigitChars 10 n.chars 0

structure Fraction where
  comma : Bool := false
  digits : List Char
  isDigit : ∀ c ∈ digits, c.isDigit = true := by simp

namespace Fraction

def chars (f : Fraction) : List Char :=
  (if f.comma then ',' else '.') :: f.digits

/-- The part of a second, cut off after the nanoseconds. -/
def nanos (f : Fraction) : Nat :=
  Nat.ofDigitChars 10 f.digits 0 * nanosPerSecond / 10 ^ f.digits.length

end Fraction

def cased (lower : Bool) (letter : Char) : Char :=
  if lower then letter.toLower else letter

inductive DateUnit
  | year
  | month
  | week
  | day

namespace DateUnit

def letter : DateUnit → Char
  | year => 'Y'
  | month => 'M'
  | week => 'W'
  | day => 'D'

def days : DateUnit → Nat
  | year => 365
  | month => 30
  | week => 7
  | day => 1

end DateUnit

structure DateTerm where
  count : Digits
  unit : DateUnit
  lower : Bool := false

namespace DateTerm

def chars (t : DateTerm) : List Char :=
  t.count.chars ++ [cased t.lower t.unit.letter]

def nanos (t : DateTerm) : Nat :=
  t.count.value * t.unit.days * 86400 * nanosPerSecond

end DateTerm

inductive TimeUnit
  | hour
  | minute

namespace TimeUnit

def letter : TimeUnit → Char
  | hour => 'H'
  | minute => 'M'

def seconds : TimeUnit → Nat
  | hour => 3600
  | minute => 60

end TimeUnit

inductive TimeTerm
  | count (n : Digits) (unit : TimeUnit) (lower : Bool)
  | seconds (n : Digits) (fraction : Option Fraction) (lower : Bool)

namespace TimeTerm

def number : TimeTerm → List Char
  | count n _ _ => n.chars
  | seconds n none _ => n.chars
  | seconds n (some f) _ => n.chars ++ f.chars

def letter : TimeTerm → Char
  | count _ unit _ => unit.letter
  | seconds .. => 'S'

def lower : TimeTerm → Bool
  | count _ _ lower => lower
  | seconds _ _ lower => lower

def chars (t : TimeTerm) : List Char :=
  t.number ++ [cased t.lower t.letter]

def nanos : TimeTerm → Nat
  | count n unit _ => n.value * unit.seconds * nanosPerSecond
  | seconds n none _ => n.value * nanosPerSecond
  | seconds n (some f) _ => n.value * nanosPerSecond + f.nanos

end TimeTerm

inductive Sign
  | none
  | plus
  | minus

namespace Sign

def chars : Sign → List Char
  | none => []
  | plus => ['+']
  | minus => ['-']

def apply : Sign → Nat → Int
  | minus, n => -n
  | _, n => n

end Sign

/-- A text for a length of time. Without components after it there is no `T`. -/
structure Spelling where
  sign : Sign := .none
  lowerP : Bool := false
  dates : List DateTerm := []
  lowerT : Bool := false
  times : List TimeTerm := []
  ne_nil : dates ≠ [] ∨ times ≠ [] := by simp

namespace Spelling

def timeChars (t : Spelling) : List Char :=
  if t.times = [] then [] else cased t.lowerT 'T' :: t.times.flatMap TimeTerm.chars

def chars (t : Spelling) : List Char :=
  t.sign.chars ++ cased t.lowerP 'P' :: (t.dates.flatMap DateTerm.chars ++ t.timeChars)

def parts (t : Spelling) : List Nat :=
  t.dates.map DateTerm.nanos ++ t.times.map TimeTerm.nanos

def nanos (t : Spelling) : Int :=
  t.sign.apply t.parts.sum

end Spelling

/-! ### Cutting a text into components -/

theorem isNumberChar_of_isDigit {c : Char} (h : c.isDigit = true) : isNumberChar c = true := by
  simp [isNumberChar, h]

theorem componentsFrom_append {number ds : List Char} (h : ∀ c ∈ ds, isNumberChar c = true)
    (cs : List Char) : componentsFrom number (ds ++ cs) = componentsFrom (number ++ ds) cs := by
  induction ds generalizing number with
  | nil => simp
  | cons d ds ih =>
      have htail : ∀ c ∈ ds, isNumberChar c = true := fun c hc => h c (by simp [hc])
      rw [List.cons_append, componentsFrom, if_pos (h d (by simp)), ih htail, List.append_assoc,
        List.singleton_append]

/-- A number and its unit come off the front as one component. -/
theorem components?_cons {ds : List Char} (hne : ds ≠ []) (h : ∀ c ∈ ds, isNumberChar c = true)
    (unit : Char) (hunit : isNumberChar unit = false) (cs : List Char) :
    components? (ds ++ unit :: cs) = (components? cs).map ((ds, unit.toUpper) :: ·) := by
  rw [components?, componentsFrom_append h, List.nil_append, componentsFrom,
    if_neg (by simp [hunit]), if_neg (by simp [hne])]
  rfl

def unitLetters : List Char :=
  ['Y', 'M', 'W', 'D', 'H', 'S']

theorem forall_unitLetters {P : Char → Prop} :
    (∀ c ∈ unitLetters, P c) ↔ P 'Y' ∧ P 'M' ∧ P 'W' ∧ P 'D' ∧ P 'H' ∧ P 'S' := by
  simp [unitLetters]

theorem cased_unit : ∀ c ∈ unitLetters, ∀ lower,
    isNumberChar (cased lower c) = false ∧ (cased lower c).toUpper = c :=
  forall_unitLetters.mpr (by decide)

/-- A row of numbers, each with its unit in either case. -/
theorem components?_flatMap {α : Type} {chars number : α → List Char} {unit : α → Char}
    {lower : α → Bool} (hchars : ∀ a, chars a = number a ++ [cased (lower a) (unit a)])
    (hne : ∀ a, number a ≠ []) (hnumber : ∀ a, ∀ c ∈ number a, isNumberChar c = true)
    (hunit : ∀ a, unit a ∈ unitLetters) (l : List α) :
    components? (l.flatMap chars) = some (l.map fun a => (number a, unit a)) := by
  induction l with
  | nil => rfl
  | cons a l ih =>
      obtain ⟨hletter, hupper⟩ := cased_unit (unit a) (hunit a) (lower a)
      rw [List.flatMap_cons, hchars, List.append_assoc, List.singleton_append,
        components?_cons (hne a) (hnumber a) _ hletter, hupper, ih]
      rfl

theorem Digits.isNumberChar (n : Digits) : ∀ c ∈ n.chars, isNumberChar c = true :=
  fun c hc => isNumberChar_of_isDigit (n.isDigit c hc)

theorem TimeTerm.number_ne_nil (t : TimeTerm) : t.number ≠ [] := by
  match t with
  | count n _ _ => exact n.ne_nil
  | seconds n none _ => exact n.ne_nil
  | seconds n (some f) _ => exact List.append_ne_nil_of_left_ne_nil n.ne_nil _

theorem Fraction.isNumberChar (f : Fraction) : ∀ c ∈ f.chars, isNumberChar c = true := by
  intro c hc
  rcases List.mem_cons.mp hc with rfl | hc
  · split <;> rfl
  · exact isNumberChar_of_isDigit (f.isDigit c hc)

theorem TimeTerm.isNumberChar (t : TimeTerm) : ∀ c ∈ t.number, isNumberChar c = true := by
  match t with
  | count n _ _ => exact n.isNumberChar
  | seconds n none _ => exact n.isNumberChar
  | seconds n (some f) _ =>
      intro c hc
      exact (List.mem_append.mp hc).elim (n.isNumberChar c) (f.isNumberChar c)

theorem DateUnit.letter_mem (u : DateUnit) : u.letter ∈ unitLetters := by
  cases u <;> decide

theorem TimeUnit.letter_mem (u : TimeUnit) : u.letter ∈ unitLetters := by
  cases u <;> decide

theorem TimeTerm.letter_mem (t : TimeTerm) : t.letter ∈ unitLetters := by
  cases t with
  | count _ unit _ => exact unit.letter_mem
  | seconds => exact (by decide : 'S' ∈ unitLetters)

def DateTerm.component (t : DateTerm) : Component :=
  (t.count.chars, t.unit.letter)

def TimeTerm.component (t : TimeTerm) : Component :=
  (t.number, t.letter)

theorem components?_dates (ts : List DateTerm) :
    components? (ts.flatMap DateTerm.chars) = some (ts.map DateTerm.component) :=
  components?_flatMap (fun _ => rfl) (fun t => t.count.ne_nil) (fun t => t.count.isNumberChar)
    (fun t => t.unit.letter_mem) ts

theorem components?_times (ts : List TimeTerm) :
    components? (ts.flatMap TimeTerm.chars) = some (ts.map TimeTerm.component) :=
  components?_flatMap (fun _ => rfl) TimeTerm.number_ne_nil TimeTerm.isNumberChar
    TimeTerm.letter_mem ts

/-! ### What components are read as -/

def inRange? (n : Nat) : Option Nat :=
  if n < secondsLimit * nanosPerSecond then some n else none

/-- A product that is checked needs no check of its first factor. -/
theorem fits?_bind_mul {n k : Nat} (hk : 0 < k) {β : Type} (f : Nat → Option β) :
    ((fits? n).bind fun n => (fits? (n * k)).bind f) = (fits? (n * k)).bind f := by
  have hle : n ≤ n * k := Nat.le_mul_of_pos_right n hk
  by_cases h : n < secondsLimit
  · rw [fits?, if_pos h, Option.bind_some]
  · rw [fits?, fits?, if_neg h, if_neg (by omega)]
    rfl

/-- Seconds fit if and only if their nanoseconds do, with a part of a second or without. -/
theorem fits?_bind_inRange? {toNanos : Nat → Nat} (h : ∀ n, toNanos n / nanosPerSecond = n)
    (n : Nat) : ((fits? n).bind fun n => some (toNanos n)) = inRange? (toNanos n) := by
  have hiff : n < secondsLimit ↔ toNanos n < secondsLimit * nanosPerSecond := by
    rw [← Nat.div_lt_iff_lt_mul (by decide), h]
  rw [fits?, inRange?]
  by_cases hn : n < secondsLimit
  · rw [if_pos hn, if_pos (hiff.mp hn), Option.bind_some]
  · rw [if_neg hn, if_neg (mt hiff.mpr hn), Option.bind_none]

theorem fits?_bind_whole (n : Nat) :
    ((fits? n).bind fun n => some (n * nanosPerSecond)) = inRange? (n * nanosPerSecond) :=
  fits?_bind_inRange? (fun n => Nat.mul_div_cancel n (by decide)) n

theorem fits?_bind_part (n : Nat) {nanos : Nat} (h : nanos < nanosPerSecond) :
    ((fits? n).bind fun n => some (n * nanosPerSecond + nanos)) =
      inRange? (n * nanosPerSecond + nanos) := by
  refine fits?_bind_inRange? (fun n => ?_) n
  rw [Nat.mul_comm, Nat.mul_add_div (by decide), Nat.div_eq_of_lt h, Nat.add_zero]

theorem Digits.read (n : Digits) : readDigits? n.chars = some n.value :=
  readDigits?_of_isDigit n.ne_nil n.isDigit

theorem DateUnit.days_pos (u : DateUnit) : 0 < u.days := by
  cases u <;> decide

theorem TimeUnit.seconds_pos (u : TimeUnit) : 0 < u.seconds := by
  cases u <;> decide

/-- Days, where the length of a day is not computed with. -/
theorem days_digits (n : Digits) (unit : DateUnit) {day : Nat} (h : 0 < day) :
    (do
      let days ← daysIn unit.letter
      let n ← readDigits? n.chars >>= fits?
      let n ← fits? (n * days)
      let n ← fits? (n * day)
      return n * nanosPerSecond) = inRange? (n.value * unit.days * day * nanosPerSecond) := by
  have hdays : daysIn unit.letter = some unit.days := by cases unit <;> rfl
  simp only [hdays, n.read, Option.bind_eq_bind, Option.bind_some, Option.pure_def]
  rw [fits?_bind_mul unit.days_pos, fits?_bind_mul h]
  exact fits?_bind_whole _

theorem datePart?_component (t : DateTerm) : datePart? t.component = inRange? t.nanos :=
  days_digits t.count t.unit (by decide)

theorem whole?_digits (n : Digits) {seconds : Nat} (h : 0 < seconds) :
    whole? n.chars seconds = inRange? (n.value * seconds * nanosPerSecond) := by
  simp only [whole?, n.read, Option.bind_eq_bind, Option.bind_some, Option.pure_def]
  rw [fits?_bind_mul h]
  exact fits?_bind_whole _

theorem ofDigitChars_lt {ds : List Char} (h : ∀ c ∈ ds, c.isDigit = true) :
    Nat.ofDigitChars 10 ds 0 < 10 ^ ds.length := by
  induction ds using List.reverseRecOn with
  | nil => decide
  | append_singleton ds c ih =>
      have hc := Text.isDigit_iff.mp (h c (by simp))
      have hlt := ih fun c hc => h c (by simp [hc])
      rw [Nat.ofDigitChars_append, Nat.ofDigitChars_cons, Nat.ofDigitChars_nil, List.length_append,
        List.length_singleton, Nat.pow_succ]
      have hzero : '0'.toNat = 48 := rfl
      omega

/-- Digits that are not looked at take off less than one from the digits before them. -/
theorem ofDigitChars_take {ds : List Char} (h : ∀ c ∈ ds, c.isDigit = true) (k : Nat) :
    Nat.ofDigitChars 10 ds 0 * 10 ^ k / 10 ^ ds.length =
      Nat.ofDigitChars 10 (ds.take k) 0 * 10 ^ (k - (ds.take k).length) := by
  rcases Nat.le_total ds.length k with hle | hle
  · have hpow : 10 ^ k = 10 ^ (k - ds.length) * 10 ^ ds.length := by
      rw [← Nat.pow_add, Nat.sub_add_cancel hle]
    rw [List.take_of_length_le hle, hpow, ← Nat.mul_assoc,
      Nat.mul_div_cancel _ (Nat.pow_pos (by decide))]
  · have hrest : Nat.ofDigitChars 10 (ds.drop k) 0 < 10 ^ (ds.length - k) := by
      have hlt := ofDigitChars_lt fun c hc => h c (List.mem_of_mem_drop (i := k) hc)
      rwa [List.length_drop] at hlt
    have hvalue : Nat.ofDigitChars 10 ds 0 =
        10 ^ (ds.length - k) * Nat.ofDigitChars 10 (ds.take k) 0 +
          Nat.ofDigitChars 10 (ds.drop k) 0 := by
      rw [← List.length_drop, ← Nat.ofDigitChars_eq_ofDigitChars_zero, ← Nat.ofDigitChars_append,
        List.take_append_drop]
    have hpow : 10 ^ ds.length = 10 ^ (ds.length - k) * 10 ^ k := by
      rw [← Nat.pow_add, Nat.sub_add_cancel hle]
    rw [List.length_take_of_le hle, Nat.sub_self, Nat.pow_zero, Nat.mul_one, hpow,
      Nat.mul_div_mul_right _ _ (Nat.pow_pos (by decide)), hvalue,
      Nat.mul_add_div (Nat.pow_pos (by decide)), Nat.div_eq_of_lt hrest, Nat.add_zero]

theorem Fraction.nanos_lt (f : Fraction) : f.nanos < nanosPerSecond := by
  rw [nanos, Nat.div_lt_iff_lt_mul (Nat.pow_pos (by decide)), Nat.mul_comm nanosPerSecond]
  exact Nat.mul_lt_mul_of_pos_right (ofDigitChars_lt f.isDigit) (by decide)

theorem cutPoint_append {n cs f : List Char} (hn : ∀ c ∈ n, c.isDigit = true)
    (hcs : cs = [] ∧ f = [] ∨ cs = '.' :: f ∨ cs = ',' :: f) : cutPoint (n ++ cs) = (n, f) := by
  have hdigits : ∀ c ∈ n, (c != '.' && c != ',') = true := by
    intro c hc
    have hdigit := hn c hc
    simp only [Bool.and_eq_true, bne_iff_ne]
    constructor <;> rintro rfl <;> cases hdigit
  rw [cutPoint, List.takeWhile_append_of_pos hdigits, List.dropWhile_append_of_pos hdigits]
  rcases hcs with ⟨rfl, rfl⟩ | rfl | rfl <;> simp

/-- Seconds with the digits after the point, of which those past the ninth make no difference. -/
theorem seconds?_of_cutPoint {number f : List Char} {n : Digits}
    (hcut : cutPoint number = (n.chars, f)) (hf : ∀ c ∈ f, c.isDigit = true) :
    seconds? number = inRange? (n.value * nanosPerSecond + Fraction.nanos ⟨false, f, hf⟩) := by
  have hne : n.chars.isEmpty = false := by simpa using n.ne_nil
  have hscaled : Nat.ofDigitChars 10 (f.take 9) 0 * Nat.pow 10 (9 - (f.take 9).length) =
      Fraction.nanos ⟨false, f, hf⟩ := (ofDigitChars_take hf 9).symm
  rw [← fits?_bind_part _ (Fraction.nanos_lt ⟨false, f, hf⟩), seconds?, hcut, ← hscaled]
  simp only [hne, Bool.false_eq_true, if_false, n.read, Option.bind_eq_bind, Option.bind_some]
  refine congrArg (Option.bind _) (funext fun seconds => ?_)
  split
  · rename_i hempty
    rw [List.isEmpty_iff.mp hempty, Nat.ofDigitChars_nil]
    rfl
  · rename_i hsome
    rw [readDigits?_of_isDigit (by simpa using hsome) fun c hc => hf c (List.mem_of_mem_take hc)]
    rfl

theorem timePart?_component (t : TimeTerm) : timePart? t.component = inRange? t.nanos := by
  match t with
  | .count n .hour _ => exact whole?_digits n (by decide)
  | .count n .minute _ => exact whole?_digits n (by decide)
  | .seconds n none _ =>
      have hcut : cutPoint n.chars = (n.chars, []) := by
        have h := cutPoint_append n.isDigit (.inl ⟨rfl, rfl⟩)
        rwa [List.append_nil] at h
      have hnanos : Fraction.nanos ⟨false, [], by simp⟩ = 0 := rfl
      have hread := seconds?_of_cutPoint hcut (by simp)
      rwa [hnanos, Nat.add_zero] at hread
  | .seconds n (some f) _ =>
      have hcut : cutPoint (n.chars ++ f.chars) = (n.chars, f.digits) := by
        refine cutPoint_append n.isDigit (.inr ?_)
        rw [Fraction.chars]
        cases f.comma
        · exact .inl rfl
        · exact .inr rfl
      exact seconds?_of_cutPoint hcut f.isDigit

/-! ### Sums -/

theorem foldlM_inRange? (l : List Nat) {start : Nat} (h : start < secondsLimit * nanosPerSecond) :
    l.foldlM (fun sum n => inRange? (sum + n)) start = inRange? (start + l.sum) := by
  induction l generalizing start with
  | nil =>
      rw [List.sum_nil, Nat.add_zero, inRange?, if_pos h]
      rfl
  | cons n l ih =>
      rw [List.foldlM_cons, List.sum_cons, ← Nat.add_assoc]
      by_cases hn : start + n < secondsLimit * nanosPerSecond
      · rw [inRange?, if_pos hn]
        exact ih hn
      · rw [inRange?, inRange?, if_neg hn, if_neg (by omega)]
        rfl

/-- What is added up is refused only if the sum is out of range. -/
theorem total?_eq (l : List Nat) : total? l = inRange? l.sum := by
  have h := foldlM_inRange? l (by decide : 0 < secondsLimit * nanosPerSecond)
  rwa [Nat.zero_add] at h

theorem inRange?_mono {m n : Nat} (h : m ≤ n) (hm : inRange? m = none) : inRange? n = none := by
  rw [inRange?] at hm ⊢
  split_ifs at hm with hlt
  rw [if_neg (by omega)]

/-- Lengths that are each in range, or one that is not, and then neither is the sum. -/
theorem mapM_inRange? (l : List Nat) :
    l.mapM inRange? = some l ∨ l.mapM inRange? = none ∧ inRange? l.sum = none := by
  induction l with
  | nil => exact .inl rfl
  | cons n l ih =>
      rw [List.mapM_cons, List.sum_cons]
      cases hn : inRange? n with
      | none => exact .inr ⟨rfl, inRange?_mono (Nat.le_add_right n _) hn⟩
      | some m =>
          obtain rfl : m = n := by
            rw [inRange?] at hn
            split_ifs at hn
            exact (Option.some.inj hn).symm
          rcases ih with hl | ⟨hl, hsum⟩
          · rw [hl]
            exact .inl rfl
          · rw [hl]
            exact .inr ⟨rfl, inRange?_mono (Nat.le_add_left _ m) hsum⟩

/-- It does not matter whether lengths are checked one by one before they are added up. -/
theorem mapM_inRange?_bind_total? {l₁ l₂ : List Nat} (hne : l₁ ++ l₂ ≠ []) :
    (do
      let dates ← l₁.mapM inRange?
      let times ← l₂.mapM inRange?
      guard (!(dates ++ times).isEmpty)
      total? (dates ++ times)) = inRange? (l₁ ++ l₂).sum := by
  have hguard : (guard (!(l₁ ++ l₂).isEmpty) : Option Unit) = some () := by
    rw [List.isEmpty_eq_false_iff.mpr hne]
    rfl
  rw [List.sum_append]
  rcases mapM_inRange? l₁ with h₁ | ⟨h₁, hsum⟩
  · rcases mapM_inRange? l₂ with h₂ | ⟨h₂, hsum⟩
    · simp only [h₁, h₂, hguard, Option.bind_eq_bind, Option.bind_some, total?_eq, List.sum_append]
    · have hnone := inRange?_mono (Nat.le_add_left l₂.sum l₁.sum) hsum
      simp only [h₁, h₂, hnone, Option.bind_eq_bind, Option.bind_some, Option.bind_none]
  · have hnone := inRange?_mono (Nat.le_add_right l₁.sum l₂.sum) hsum
    simp only [h₁, hnone, Option.bind_eq_bind, Option.bind_none]

/-! ### Whole texts -/

/-- Components that are read as what their terms are worth, one by one. -/
theorem mapM_part? {α : Type} {cs : List Char} {ts : List α} {component : α → Component}
    {part? : Component → Option Nat} {nanos : α → Nat}
    (hcut : components? cs = some (ts.map component))
    (hpart : ∀ t, part? (component t) = inRange? (nanos t)) :
    (components? cs >>= List.mapM part?) = (ts.map nanos).mapM inRange? := by
  have hparts : part? ∘ component = inRange? ∘ nanos := funext hpart
  rw [hcut, Option.bind_eq_bind, Option.bind_some, List.mapM_map, List.mapM_map, hparts]

namespace Spelling

variable (t : Spelling)

theorem not_T_of_mem_dates {c : Char} (h : c ∈ t.dates.flatMap DateTerm.chars) :
    (!(c == 'T' || c == 't')) = true := by
  obtain ⟨d, -, hc⟩ := List.mem_flatMap.mp h
  rcases List.mem_append.mp hc with hc | hc
  · have hdigit := d.count.isDigit c hc
    simp only [Bool.not_eq_true', Bool.or_eq_false_iff, beq_eq_false_iff_ne]
    constructor <;> rintro rfl <;> cases hdigit
  · have hletters : ∀ c ∈ unitLetters, ∀ lower,
        (!(cased lower c == 'T' || cased lower c == 't')) = true :=
      forall_unitLetters.mpr (by decide)
    rw [List.mem_singleton.mp hc]
    exact hletters _ d.unit.letter_mem d.lower

theorem parts_ne_nil : t.parts ≠ [] := by
  rcases t.ne_nil with h | h <;> simp [parts, h]

theorem flatMap_times_ne_nil (h : t.times ≠ []) : t.times.flatMap TimeTerm.chars ≠ [] := by
  obtain ⟨u, us, hu⟩ := List.exists_cons_of_ne_nil h
  simp [hu, TimeTerm.chars]

/-- The `T` is there if anything comes after it. -/
theorem timeChars_eq : t.timeChars =
    if (t.times.flatMap TimeTerm.chars).isEmpty then []
    else cased t.lowerT 'T' :: t.times.flatMap TimeTerm.chars := by
  by_cases h : t.times = []
  · rw [timeChars, if_pos h, h]
    rfl
  · rw [timeChars, if_neg h, if_neg (by simpa using t.flatMap_times_ne_nil h)]

theorem body?_chars : body? (t.dates.flatMap DateTerm.chars ++ t.timeChars) =
    inRange? t.parts.sum := by
  have hnoT : ∀ c ∈ t.dates.flatMap DateTerm.chars, (!(c == 'T' || c == 't')) = true :=
    fun c => t.not_T_of_mem_dates
  have hdates := mapM_part? (components?_dates t.dates) datePart?_component
  have htimeparts := mapM_part? (components?_times t.times) timePart?_component
  rw [parts, ← mapM_inRange?_bind_total? t.parts_ne_nil, ← hdates, body?]
  simp only [List.takeWhile_append_of_pos hnoT, List.dropWhile_append_of_pos hnoT]
  by_cases htimes : t.times = []
  · have htime : t.timeChars = [] := if_pos htimes
    rw [htime, htimes]
    simp only [List.takeWhile_nil, List.dropWhile_nil, List.append_nil, List.map_nil, List.mapM_nil]
    rfl
  · have htime : t.timeChars = cased t.lowerT 'T' :: t.times.flatMap TimeTerm.chars := if_neg htimes
    have hT : (!(cased t.lowerT 'T' == 'T' || cased t.lowerT 'T' == 't')) = false := by
      cases t.lowerT <;> rfl
    -- The reader refuses a `T` at the end, so the components after it have to be seen.
    obtain ⟨c, cs, hchars⟩ := List.exists_cons_of_ne_nil (t.flatMap_times_ne_nil htimes)
    rw [← htimeparts, htime, hchars]
    simp only [List.takeWhile_cons, List.dropWhile_cons, hT, Bool.false_eq_true, if_false,
      List.append_nil]

theorem ofChars?_chars :
    ofChars? t.chars = (inRange? t.parts.sum).bind fun n => of? (t.sign.apply n) := by
  rw [← t.body?_chars, chars]
  cases t.sign <;> cases t.lowerP <;> rfl

end Spelling

theorem isBlank_of_isNumberChar {c : Char} (h : isNumberChar c = true) :
    Text.isBlank c = false := by
  simp only [isNumberChar, Bool.or_eq_true, beq_iff_eq] at h
  rcases h with (h | rfl) | rfl
  · exact Text.isBlank_of_isDigit h
  · rfl
  · rfl

theorem isBlank_cased_unit : ∀ c ∈ unitLetters, ∀ lower, Text.isBlank (cased lower c) = false :=
  forall_unitLetters.mpr (by decide)

/-- No spelling has blanks in it. -/
theorem Spelling.solid_chars (t : Spelling) : Text.Solid t.chars := by
  have hdates : Text.Solid (t.dates.flatMap DateTerm.chars) := by
    intro c hc
    obtain ⟨d, -, hc⟩ := List.mem_flatMap.mp hc
    rcases List.mem_append.mp hc with hc | hc
    · exact isBlank_of_isNumberChar (d.count.isNumberChar c hc)
    · rw [List.mem_singleton.mp hc]
      exact isBlank_cased_unit _ d.unit.letter_mem _
  have htimes : Text.Solid (t.times.flatMap TimeTerm.chars) := by
    intro c hc
    obtain ⟨d, -, hc⟩ := List.mem_flatMap.mp hc
    rcases List.mem_append.mp hc with hc | hc
    · exact isBlank_of_isNumberChar (d.isNumberChar c hc)
    · rw [List.mem_singleton.mp hc]
      exact isBlank_cased_unit _ d.letter_mem _
  have htime : Text.Solid t.timeChars := by
    rw [timeChars]
    split
    · exact Text.solid_nil
    · have hT : Text.isBlank (cased t.lowerT 'T') = false := by cases t.lowerT <;> rfl
      exact Text.solid_cons.mpr ⟨hT, htimes⟩
  have hsign : Text.Solid t.sign.chars := by
    cases t.sign <;> decide
  have hP : Text.isBlank (cased t.lowerP 'P') = false := by cases t.lowerP <;> rfl
  have hrest := Text.solid_append.mpr ⟨hdates, htime⟩
  exact Text.solid_append.mpr ⟨hsign, Text.solid_cons.mpr ⟨hP, hrest⟩⟩

def longest : Duration where
  nanos := ((secondsLimit - 1) * nanosPerSecond + 999999999 : Nat)

theorem lt_iff_le_longest {n : Nat} :
    n < secondsLimit * nanosPerSecond ↔ (n : Int) ≤ longest.nanos := by
  have hlongest : longest.nanos = ((secondsLimit * nanosPerSecond : Nat) : Int) - 1 := rfl
  omega

theorem of?_apply {n : Nat} (h : n < secondsLimit * nanosPerSecond) (s : Sign) :
    (of? (s.apply n)).map nanos = some (s.apply n) := by
  have hlimit : secondsLimit * nanosPerSecond ≤ (secondsLimit + 1) * nanosPerSecond :=
    Nat.mul_le_mul_right _ (Nat.le_succ _)
  have hrange : IsDuration (s.apply n) := by
    cases s <;> simp only [IsDuration, Sign.apply] <;> omega
  rw [of?, dif_pos hrange]
  rfl

/-- A text is read as the sum of what its components are worth, if that is in range. -/
theorem ofString?_of_spelling {s : String} {t : Spelling}
    (h : Text.trimChars s.toList = t.chars) :
    ofString? s = (inRange? t.parts.sum).bind fun n => of? (t.sign.apply n) := by
  rw [ofString?, h, t.ofChars?_chars]

/-- A text that spells a length of time is read as exactly that, or refused because it is longer
than any duration. -/
theorem ofString?_spelled {s : String} {t : Spelling} (h : Text.trimChars s.toList = t.chars) :
    (ofString? s).map nanos =
      if (t.parts.sum : Int) ≤ longest.nanos then some t.nanos else none := by
  rw [ofString?_of_spelling h, inRange?]
  by_cases hsum : t.parts.sum < secondsLimit * nanosPerSecond
  · rw [if_pos hsum, if_pos (lt_iff_le_longest.mp hsum), Option.bind_some, of?_apply hsum,
      Spelling.nanos]
  · rw [if_neg hsum, if_neg (mt lt_iff_le_longest.mpr hsum)]
    rfl

def mixed : Spelling where
  sign := .minus
  lowerP := true
  dates := [{ count := { chars := ['1'] }, unit := .week, lower := true }]
  times := [.seconds { chars := ['1'] } (some { comma := true, digits := ['5'] }) true,
    .count { chars := ['2'] } .hour false]

theorem ofString?_spelled_mixed :
    Text.trimChars " -p1wT1,5s2H ".toList = mixed.chars ∧
      (ofString? " -p1wT1,5s2H ").map nanos = some (-612001500000000) := by
  have hchars : Text.trimChars " -p1wT1,5s2H ".toList = mixed.chars := by decide
  have hnanos : mixed.nanos = -612001500000000 := by decide
  have hsum : (mixed.parts.sum : Int) ≤ longest.nanos := by decide
  refine ⟨hchars, ?_⟩
  rw [ofString?_spelled hchars, if_pos hsum, hnanos]

/-! ### No step overflows before the sum does -/

/-- The whole numbers that come up in reading a component, each made from those before it. -/
def DateTerm.steps (t : DateTerm) : List Nat :=
  [t.count.value, t.count.value * t.unit.days, t.count.value * t.unit.days * 86400]

def Fraction.steps (f : Fraction) : List Nat :=
  let ds := f.digits.take 9
  [Nat.ofDigitChars 10 ds 0, 10 ^ (9 - ds.length), Nat.ofDigitChars 10 ds 0 * 10 ^ (9 - ds.length)]

def TimeTerm.steps : TimeTerm → List Nat
  | count n unit _ => [n.value, n.value * unit.seconds]
  | seconds n none _ => [n.value]
  | seconds n (some f) _ => n.value :: f.steps

/-- Every number that comes up fits 64 bits with its sign, and every sum on the way is a
duration. -/
structure Spelling.Fits (t : Spelling) : Prop where
  steps : ∀ n ∈ t.dates.flatMap DateTerm.steps ++ t.times.flatMap TimeTerm.steps, n < secondsLimit
  sums : ∀ l, l <+: t.parts → l.sum < secondsLimit * nanosPerSecond

theorem Fraction.steps_lt {f : Fraction} {n : Nat} (h : n ∈ f.steps) : n < secondsLimit := by
  have hvalue : Nat.ofDigitChars 10 (f.digits.take 9) 0 < 10 ^ (f.digits.take 9).length :=
    ofDigitChars_lt fun c hc => f.isDigit c (List.mem_of_mem_take hc)
  have hlength : 10 ^ (f.digits.take 9).length ≤ 10 ^ 9 :=
    Nat.pow_le_pow_right (by decide) (List.length_take_le 9 _)
  have hscale : 10 ^ (9 - (f.digits.take 9).length) ≤ 10 ^ 9 :=
    Nat.pow_le_pow_right (by decide) (Nat.sub_le _ _)
  have hscaled : Nat.ofDigitChars 10 (f.digits.take 9) 0 * 10 ^ (9 - (f.digits.take 9).length) =
      f.nanos := (ofDigitChars_take f.isDigit 9).symm
  have hnanos : f.nanos < 10 ^ 9 := f.nanos_lt
  have hlimit : 10 ^ 9 < secondsLimit := by decide
  rw [steps, hscaled] at h
  simp only [List.mem_cons, List.not_mem_nil, or_false] at h
  rcases h with rfl | rfl | rfl <;> omega

/-- What comes up in reading a component is at most its whole seconds, its fraction apart. -/
theorem DateTerm.steps_le {t : DateTerm} {n : Nat} (h : n ∈ t.steps) :
    n * nanosPerSecond ≤ t.nanos := by
  have hdays := Nat.le_mul_of_pos_right t.count.value t.unit.days_pos
  have hday := Nat.le_mul_of_pos_right (t.count.value * t.unit.days) (by decide : 0 < 86400)
  refine Nat.mul_le_mul_right _ ?_
  simp only [steps, List.mem_cons, List.not_mem_nil, or_false] at h
  rcases h with rfl | rfl | rfl
  · exact hdays.trans hday
  · exact hday
  · exact Nat.le_refl _

theorem TimeTerm.steps_le {t : TimeTerm} {n : Nat} (h : n ∈ t.steps) :
    n * nanosPerSecond ≤ t.nanos ∨ n < secondsLimit := by
  match t with
  | count m unit _ =>
      have hseconds := Nat.le_mul_of_pos_right m.value unit.seconds_pos
      simp only [steps, List.mem_cons, List.not_mem_nil, or_false] at h
      rcases h with rfl | rfl
      · exact .inl (Nat.mul_le_mul_right _ hseconds)
      · exact .inl (Nat.le_refl _)
  | seconds m none _ =>
      rw [List.mem_singleton.mp h]
      exact .inl (Nat.le_refl _)
  | seconds m (some f) _ =>
      rcases List.mem_cons.mp h with rfl | h
      · exact .inl (Nat.le_add_right _ _)
      · exact .inr (Fraction.steps_lt h)

/-- A step fails only where the whole sum is too large. -/
theorem Spelling.fits_iff (t : Spelling) :
    t.Fits ↔ t.parts.sum < secondsLimit * nanosPerSecond := by
  constructor
  · intro h
    exact h.sums t.parts List.prefix_rfl
  · intro h
    have hpart {m n : Nat} (hm : m ∈ t.parts) (hn : n * nanosPerSecond ≤ m) : n < secondsLimit :=
      Nat.lt_of_mul_lt_mul_right (Nat.lt_of_le_of_lt (hn.trans (List.le_sum_of_mem hm)) h)
    refine ⟨fun n hn => ?_, fun l hl => ?_⟩
    · rcases List.mem_append.mp hn with hn | hn
      · obtain ⟨d, hd, hn⟩ := List.mem_flatMap.mp hn
        exact hpart (List.mem_append_left _ (List.mem_map_of_mem hd)) (DateTerm.steps_le hn)
      · obtain ⟨d, hd, hn⟩ := List.mem_flatMap.mp hn
        rcases TimeTerm.steps_le hn with hle | hlt
        · exact hpart (List.mem_append_right _ (List.mem_map_of_mem hd)) hle
        · exact hlt
    · obtain ⟨rest, hrest⟩ := hl
      rw [← hrest, List.sum_append] at h
      omega

end Duration

end Marshal
