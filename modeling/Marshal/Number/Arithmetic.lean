import Marshal.Number.Binary

/-!
Arithmetic on numbers of 64 bits that are not negative: each result is the exact one, rounded once.
-/

namespace Marshal.Double

def ofNat (n : Nat) : Double :=
  ofRatio n 1

/-- The number as a quotient; `none` beyond the finite numbers. -/
def ratio? (x : Double) : Option (Nat × Nat) :=
  match x.reading with
  | .finite _ m q => some (m * Nat.pow 2 q.toNat, Nat.pow 2 (-q).toNat)
  | _ => none

def infinity : Double :=
  ⟨UInt64.ofNat Shape.binary64.infinity⟩

def plus (x y : Double) : Double :=
  match x.ratio?, y.ratio? with
  | some (a, b), some (c, d) => ofRatio (a * d + c * b) (b * d)
  | _, _ => infinity

def times (x y : Double) : Double :=
  match x.ratio?, y.ratio? with
  | some (a, b), some (c, d) => ofRatio (a * c) (b * d)
  | _, _ => infinity

/-- The digit `n` over `y`; over an infinite number nothing is left. -/
def dividedBy (n : Nat) (y : Double) : Double :=
  match y.ratio? with
  | some (c, d) => ofRatio (n * d) c
  | none => ofNat 0

/-- The whole part. -/
def floor (x : Double) : Nat :=
  match x.ratio? with
  | some (a, b) => a / b
  | none => 0

/-- The nearest whole number, halves going up. -/
def round (x : Double) : Nat :=
  match x.ratio? with
  | some (a, b) => (2 * a + b) / (2 * b)
  | none => 0

end Marshal.Double
