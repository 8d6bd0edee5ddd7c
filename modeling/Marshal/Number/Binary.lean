/-!
Binary floating point as bit patterns. A finite pattern stands for `m · 2^q`; rounding a quotient of
whole numbers to the nearest pattern, a tie to the even one, is all the arithmetic there is.
-/

namespace Marshal

/-- A binary format: how many bits hold the fraction, and how many the exponent. -/
structure Shape where
  fraction : Nat
  exponent : Nat

/-- What a pattern stands for. -/
inductive Reading
  | nan
  | infinite (negative : Bool)
  /-- The number `m · 2^q`, or its opposite. -/
  | finite (negative : Bool) (m : Nat) (q : Int)
  deriving DecidableEq

/-- The whole number nearest to `n / d`, of two the even one. -/
def roundDiv (n d : Nat) : Nat :=
  if n % d * 2 < d then n / d
  else if d < n % d * 2 then n / d + 1
  else n / d + n / d % 2

namespace Shape

def binary64 : Shape := ⟨52, 11⟩

def binary32 : Shape := ⟨23, 8⟩

/-- The power of two that the least positive pattern stands for. -/
def minPower (s : Shape) : Int :=
  2 - Nat.pow 2 (s.exponent - 1) - s.fraction

def infinity (s : Shape) : Nat :=
  (Nat.pow 2 s.exponent - 1) * Nat.pow 2 s.fraction

def signBit (s : Shape) : Nat :=
  Nat.pow 2 (s.fraction + s.exponent)

def quietNan (s : Shape) : Nat :=
  s.infinity + Nat.pow 2 (s.fraction - 1)

def decode (s : Shape) (bits : Nat) : Reading :=
  let negative := bits / s.signBit % 2 == 1
  let magnitude := bits % s.signBit
  let e := magnitude / Nat.pow 2 s.fraction
  let f := magnitude % Nat.pow 2 s.fraction
  if magnitude > s.infinity then .nan
  else if magnitude = s.infinity then .infinite negative
  else if e = 0 then .finite negative f s.minPower
  else .finite negative (Nat.pow 2 s.fraction + f) (s.minPower + (e - 1))

/-- The greatest `e` with `2^e ≤ num / den`. -/
def log2Ratio (num den : Nat) : Int :=
  let e : Int := num.log2 - den.log2
  if num * Nat.pow 2 (-e).toNat < den * Nat.pow 2 e.toNat then e - 1 else e

/-- The pattern of the number nearest to `num / den`; what is too large becomes infinite. -/
def nearest (s : Shape) (num den : Nat) : Nat :=
  if num = 0 then 0
  else
    let q := max (log2Ratio num den - s.fraction) s.minPower
    let m := roundDiv (num * Nat.pow 2 (-q).toNat) (den * Nat.pow 2 q.toNat)
    min ((q - s.minPower).toNat * Nat.pow 2 s.fraction + m) s.infinity

def signed (s : Shape) (negative : Bool) (magnitude : Nat) : Nat :=
  if negative then s.signBit + magnitude else magnitude

/-- The pattern in format `s` for what a pattern of any format stands for. -/
def encode (s : Shape) : Reading → Nat
  | .nan => s.quietNan
  | .infinite negative => s.signed negative s.infinity
  | .finite negative m q =>
    s.signed negative (s.nearest (m * Nat.pow 2 q.toNat) (Nat.pow 2 (-q).toNat))

end Shape

/-- A number of 32 bits. -/
structure Single where
  bits : UInt32
  deriving DecidableEq, Inhabited

/-- A number of 64 bits. -/
structure Double where
  bits : UInt64
  deriving DecidableEq, Inhabited

def Single.reading (x : Single) : Reading :=
  Shape.binary32.decode x.bits.toNat

def Single.ofReading (r : Reading) : Single :=
  ⟨UInt32.ofNat (Shape.binary32.encode r)⟩

namespace Double

def reading (x : Double) : Reading :=
  Shape.binary64.decode x.bits.toNat

def ofReading (r : Reading) : Double :=
  ⟨UInt64.ofNat (Shape.binary64.encode r)⟩

/-- The nearest number to `num / den`. -/
def ofRatio (num den : Nat) : Double :=
  ⟨UInt64.ofNat (Shape.binary64.nearest num den)⟩

def ofSingle (x : Single) : Double :=
  ofReading x.reading

def toSingle (x : Double) : Single :=
  Single.ofReading x.reading

def isFinite (x : Double) : Bool :=
  match x.reading with
  | .finite .. => true
  | _ => false

/-- Equality of numbers: zeros of both signs are equal, and what is no number equals nothing. -/
def same (x y : Double) : Bool :=
  match x.reading, y.reading with
  | .nan, _ | _, .nan => false
  | .finite _ 0 _, .finite _ 0 _ => true
  | _, _ => x.bits == y.bits

end Double

end Marshal
