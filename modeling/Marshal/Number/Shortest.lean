import Marshal.Number.Binary
import Marshal.Number.Digits

/-!
The shortest decimal text of a binary number: the fewest digits that are read back as the same
pattern, and of those the nearest to the number. Where the point and the exponent stand is a
`FloatLayout`.
-/

namespace Marshal

/-- Which of two decimal numbers stands for the number that is halfway between them. -/
inductive Tie
  | even
  | up
  deriving DecidableEq

/-- Whether the lower of two neighbours wins a tie. -/
def Tie.keeps (tie : Tie) (below : Nat) : Bool :=
  match tie with
  | even => below % 2 == 0
  | up => false

/-- A positive decimal number `digits · 10^exponent`. -/
structure Scaled where
  digits : Nat
  exponent : Int
  deriving DecidableEq

namespace Scaled

/-- Multiples of `10^k` from `n` digits on: of the two neighbours of `v` those that lie between `lo`
and `hi`, the nearer one if both do. -/
def onGrid? (tie : Tie) (v lo hi : Nat) (closed : Bool) (k : Nat) : Option Nat :=
  let step := Nat.pow 10 k
  let below := v / step
  let inside (x : Nat) : Bool :=
    if closed then lo ≤ x && x ≤ hi else decide (lo < x) && decide (x < hi)
  let low := inside (below * step)
  let high := inside ((below + 1) * step)
  match low, high with
  | true, true =>
    let twice := v % step * 2
    some (if twice < step ∨ (twice = step ∧ tie.keeps below) then below else below + 1)
  | true, false => some below
  | false, true => some (below + 1)
  | false, false => none

/-- The coarsest grid with a hit, from multiples of `10^k` down. -/
def search (tie : Tie) (v lo hi : Nat) (closed : Bool) : Nat → Nat × Nat
  | 0 => ((onGrid? tie v lo hi closed 0).getD v, 0)
  | k + 1 =>
    match onGrid? tie v lo hi closed (k + 1) with
    | some d => (d, k + 1)
    | none => search tie v lo hi closed k

/-- Takes the zeros off the end of the digits. -/
def dropZeros : Nat → Nat → Int → Scaled
  | 0, d, e => ⟨d, e⟩
  | fuel + 1, d, e => if d % 10 = 0 then dropZeros fuel (d / 10) (e + 1) else ⟨d, e⟩

/-- The shortest digits for `m · 2^q`, a positive number of format `s`. All of it happens in units
of `10^-t`, where the number and the ends of its rounding interval are whole. -/
def shortest (tie : Tie) (s : Shape) (m : Nat) (q : Int) : Scaled :=
  let t := (2 - q).toNat
  let unit := Nat.pow 2 (q - 2).toNat * Nat.pow 5 t
  let down := if m = Nat.pow 2 s.fraction ∧ s.minPower < q then 1 else 2
  let v := 4 * m * unit
  let (d, k) := search tie v ((4 * m - down) * unit) ((4 * m + 2) * unit) (m % 2 == 0)
    ((natChars v).length - 1)
  dropZeros (natChars d).length d (k - t)

end Scaled

/-- How a decimal number is laid out. -/
structure FloatLayout where
  /-- The exponents written with a point only; all of them if `none`. -/
  positional : Option (Int × Int)
  /-- Whether a whole number gets `.0`. -/
  pointZero : Bool
  /-- Which digits are chosen if two choices are equally near. -/
  tie : Tie

namespace FloatLayout

/-- No exponent, and no point in a whole number. -/
def plain : FloatLayout := ⟨none, false, .up⟩

/-- An exponent below `10^-5` and from `10^16` on, and always a fraction without one. -/
def exponential : FloatLayout := ⟨some (-5, 15), true, .even⟩

def whole (l : FloatLayout) (cs : List Char) : List Char :=
  if l.pointZero then cs ++ ['.', '0'] else cs

/-- Digits and a point. -/
def pointed (l : FloatLayout) (x : Scaled) : List Char :=
  let ds := natChars x.digits
  if 0 ≤ x.exponent then l.whole (ds ++ List.replicate x.exponent.toNat '0')
  else
    let places := (-x.exponent).toNat
    if places < ds.length then
      ds.take (ds.length - places) ++ '.' :: ds.drop (ds.length - places)
    else '0' :: '.' :: (List.replicate (places - ds.length) '0' ++ ds)

/-- One digit before the point, and an exponent with a sign. -/
def scientific (ds : List Char) (e : Int) : List Char :=
  let mantissa := match ds with
    | d :: r :: rs => d :: '.' :: r :: rs
    | ds => ds
  mantissa ++ 'e' :: (if e < 0 then '-' else '+') :: natChars e.natAbs

def positive (l : FloatLayout) (x : Scaled) : List Char :=
  let ds := natChars x.digits
  let e : Int := ds.length - 1 + x.exponent
  match l.positional with
  | none => l.pointed x
  | some (lo, hi) => if lo ≤ e ∧ e ≤ hi then l.pointed x else scientific ds e

def chars (l : FloatLayout) (s : Shape) : Reading → List Char
  | .nan => "NaN".toList
  | .infinite negative => (if negative then ['-'] else []) ++ "inf".toList
  | .finite negative m q =>
    (if negative then ['-'] else []) ++
      (if m = 0 then l.whole ['0'] else l.positive (Scaled.shortest l.tie s m q))

end FloatLayout

def Single.text (l : FloatLayout) (x : Single) : String :=
  String.ofList (l.chars .binary32 x.reading)

def Double.text (l : FloatLayout) (x : Double) : String :=
  String.ofList (l.chars .binary64 x.reading)

end Marshal
