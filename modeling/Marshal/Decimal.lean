import Marshal.Number.Digits
import Marshal.Text.Split

/-!
Decimal numbers with a scale: `1.5` and `1.50` are the same number written differently. The digits
fit 96 bits and at most 28 of them stand after the point.
-/

namespace Marshal

/-- What 96 bits cannot hold: two to the power 96. -/
abbrev decimalLimit : Nat := 79228162514264337593543950336

structure Decimal where
  negative : Bool
  mantissa : Nat
  scale : Nat
  mantissa_lt : mantissa < decimalLimit := by decide
  scale_le : scale ≤ 28 := by decide
  deriving DecidableEq

namespace Decimal

def zero : Decimal := ⟨false, 0, 0, by decide, by decide⟩

instance : Inhabited Decimal := ⟨zero⟩

/-- The decimal of this sign, these digits and this scale, if it fits. -/
def of? (negative : Bool) (mantissa scale : Nat) : Option Decimal :=
  if h : mantissa < decimalLimit ∧ scale ≤ 28 then
    some ⟨negative, mantissa, scale, h.1, h.2⟩
  else none

/-- The number itself, as a whole number of units of `10^-28`. -/
def units (d : Decimal) : Int :=
  let n : Nat := d.mantissa * Nat.pow 10 (28 - d.scale)
  if d.negative then -n else n

def chars (d : Decimal) : List Char :=
  let ds := paddedChars (d.scale + 1) d.mantissa
  (if d.negative then ['-'] else []) ++ ds.take (ds.length - d.scale) ++
    (if d.scale = 0 then [] else '.' :: ds.drop (ds.length - d.scale))

/-- All digits of the scale, also zeros. -/
def text (d : Decimal) : String :=
  String.ofList d.chars

/-- Takes zeros off the end while any stand after the point. -/
def stripZeros : Nat → Nat → Nat × Nat
  | m, 0 => (m, 0)
  | m, s + 1 => if m % 10 = 0 then stripZeros (m / 10) s else (m, s + 1)

theorem stripZeros_le (m s : Nat) : (stripZeros m s).1 ≤ m ∧ (stripZeros m s).2 ≤ s := by
  induction s generalizing m with
  | zero => simp [stripZeros]
  | succ s ih =>
    rw [stripZeros]
    split
    · have := ih (m / 10)
      have := Nat.div_le_self m 10
      omega
    · simp

/-- The same number at its least scale; a zero loses its sign. -/
def normalize (d : Decimal) : Decimal where
  negative := d.negative && d.mantissa != 0
  mantissa := (stripZeros d.mantissa d.scale).1
  scale := (stripZeros d.mantissa d.scale).2
  mantissa_lt := Nat.lt_of_le_of_lt (stripZeros_le ..).1 d.mantissa_lt
  scale_le := Nat.le_trans (stripZeros_le ..).2 d.scale_le

/-- Digits read so far, and how many of them stand after the point. -/
abbrev Digits := Nat × Nat

/-- Ends a number at its first digit that does not fit: from five on it rounds up, and where that
overflows one more digit goes. What follows has to be digits. -/
def roundAt (digit : Nat) (rest : List Char) (m s : Nat) : Option Digits :=
  if !rest.all fun c => c.isDigit || c == '_' then none
  else if digit < 5 then some (m, s)
  else if m + 1 < decimalLimit then some (m + 1, s)
  else match s with
    | 0 => none
    | s + 1 => some ((m + 5) / 10, s)

/-- A number of 28 places is short if, without its last place, its digits stay below this: ten times
as much and a digit more still fits 64 bits. -/
abbrev shortLimit : Nat := 1844674407370954906

/-- Reads digits with at most one point. Underscores may stand after the first digit, and are passed
over; but right after the last place of a short number one stands for a zero. -/
def scan (m s : Nat) (pointed started : Bool) : List Char → Option Digits
  | [] => if started then some (m, s) else none
  | c :: cs =>
    if c.isDigit then
      let next := m * 10 + (c.toNat - '0'.toNat)
      if pointed && 28 ≤ s then roundAt (c.toNat - '0'.toNat) cs m s
      else if next < decimalLimit then scan next (if pointed then s + 1 else s) pointed true cs
      else if pointed then roundAt (c.toNat - '0'.toNat) cs m s
      else none
    else if c = '.' ∧ !pointed then scan m s true started cs
    else if c = '_' ∧ started then
      if pointed && 28 ≤ s && m / 10 < shortLimit then roundAt 0 cs m s
      else scan m s pointed started cs
    else none

/-- A minus sign on a zero is lost. -/
def signed? (negative : Bool) (cs : List Char) : Option Decimal :=
  (scan 0 0 false false cs).bind fun (m, s) => of? (negative && m != 0) m s

/-- Positional notation: an optional sign, digits and at most one point. -/
def ofPlain? : List Char → Option Decimal
  | '-' :: cs => signed? true cs
  | '+' :: cs => signed? false cs
  | cs => signed? false cs

/-- Drops `n` digits, rounding by the last one dropped: five and more go up. -/
def dropDigits : Nat → Nat → Nat
  | 0, m => m
  | 1, m => if 5 ≤ m % 10 then m / 10 + 1 else m / 10
  | n + 2, m => dropDigits (n + 1) (m / 10)

/-- Divides by `10^e`, at 28 places at most. -/
def shiftDown? (d : Decimal) (e : Nat) : Option Decimal :=
  if 28 < e then none
  else if d.scale + e ≤ 28 then of? d.negative d.mantissa (d.scale + e)
  else of? d.negative (dropDigits (d.scale + e - 28) d.mantissa) 28

/-- Multiplies by `10^e`: the point moves, and past the end zeros are appended. -/
def shiftUp? (d : Decimal) (e : Nat) : Option Decimal :=
  if 28 < e then none
  else if e ≤ d.scale then of? d.negative d.mantissa (d.scale - e)
  else of? d.negative (d.mantissa * Nat.pow 10 (e - d.scale)) 0

/-- Positional notation before `e` and a whole number. -/
def ofScientific? (cs : List Char) : Option Decimal := do
  let base := cs.takeWhile fun c => c != 'e' && c != 'E'
  let rest := cs.dropWhile fun c => c != 'e' && c != 'E'
  let d ← ofPlain? base
  match rest with
  | _ :: '-' :: e => (readNat? e).bind d.shiftDown?
  | _ :: e => (readNat? e).bind d.shiftUp?
  | [] => none

def ofChars? (cs : List Char) : Option Decimal :=
  ofPlain? cs <|> ofScientific? cs

end Decimal

end Marshal
