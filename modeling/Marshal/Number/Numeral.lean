import Marshal.Number.Binary
import Marshal.Number.Digits

/-!
Decimal texts of floating point numbers, read to the nearest binary number: digits with an optional
point and an exponent, `inf`, `infinity` and `nan` in any letter case, and a sign before any of
them.
-/

namespace Marshal

inductive Numeral
  | nan
  | infinite (negative : Bool)
  /-- The number `digits · 10^exponent`, or its opposite. -/
  | finite (negative : Bool) (digits : Nat) (exponent : Int)
  deriving DecidableEq

namespace Numeral

/-- The exponent after the digits: nothing, or `e` and a whole number. -/
def exponent? : List Char → Option Int
  | [] => some 0
  | c :: cs => if c = 'e' ∨ c = 'E' then readInt? cs else none

/-- Digits, of which one at least stands before or after an optional point. -/
def finite? (negative : Bool) (cs : List Char) : Option Numeral :=
  let ip := cs.takeWhile Char.isDigit
  let (fp, rest) := match cs.dropWhile Char.isDigit with
    | '.' :: r => (r.takeWhile Char.isDigit, r.dropWhile Char.isDigit)
    | r => ([], r)
  if ip.isEmpty && fp.isEmpty then none
  else (exponent? rest).map fun e =>
    .finite negative (Nat.ofDigitChars 10 (ip ++ fp) 0) (e - fp.length)

def unsigned? (negative : Bool) (cs : List Char) : Option Numeral :=
  let word := cs.map Char.toLower
  if word = "nan".toList then some .nan
  else if word = "inf".toList ∨ word = "infinity".toList then some (.infinite negative)
  else finite? negative cs

def ofChars? : List Char → Option Numeral
  | '-' :: cs => unsigned? true cs
  | '+' :: cs => unsigned? false cs
  | cs => unsigned? false cs

/-- Powers of ten beyond this one are larger, or their opposites smaller, than any binary number. -/
def farPower : Nat := 400

/-- The pattern of format `s` nearest to the number. -/
def pattern (s : Shape) : Numeral → Nat
  | .nan => s.quietNan
  | .infinite negative => s.signed negative s.infinity
  | .finite negative digits exponent =>
    let magnitude := exponent + (natChars digits).length
    s.signed negative <|
      if digits = 0 ∨ magnitude < -(farPower : Int) then 0
      else if magnitude > farPower then s.infinity
      else s.nearest (digits * Nat.pow 10 exponent.toNat) (Nat.pow 10 (-exponent).toNat)

end Numeral

def Single.ofChars? (cs : List Char) : Option Single :=
  (Numeral.ofChars? cs).map fun n => ⟨UInt32.ofNat (n.pattern .binary32)⟩

def Double.ofChars? (cs : List Char) : Option Double :=
  (Numeral.ofChars? cs).map fun n => ⟨UInt64.ofNat (n.pattern .binary64)⟩

end Marshal
