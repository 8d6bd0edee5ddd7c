/-!
Whole numbers as decimal digits, with or without a sign, and their reading into words of a fixed
width; hexadecimal digits one at a time.
-/

namespace Marshal

def natChars (n : Nat) : List Char :=
  Nat.toDigits 10 n

/-- At least `width` digits, with zeros in front where `n` has fewer. -/
def paddedChars (width n : Nat) : List Char :=
  List.replicate (width - (natChars n).length) '0' ++ natChars n

def intChars (n : Int) : List Char :=
  if n < 0 then '-' :: natChars n.natAbs else natChars n.natAbs

def natText (n : Nat) : String :=
  String.ofList (natChars n)

def intText (n : Int) : String :=
  String.ofList (intChars n)

def isDigits (cs : List Char) : Bool :=
  !cs.isEmpty && cs.all Char.isDigit

/-- Reads one or more digits and nothing else. -/
def readDigits? (cs : List Char) : Option Nat :=
  if isDigits cs then some (Nat.ofDigitChars 10 cs 0) else none

/-- Digits after an optional plus. -/
def readNat? : List Char → Option Nat
  | '+' :: cs => readDigits? cs
  | cs => readDigits? cs

/-- Digits after an optional plus or minus. -/
def readInt? : List Char → Option Int
  | '-' :: cs => (readDigits? cs).map fun n => -(n : Int)
  | cs => (readNat? cs).map Int.ofNat

def toUInt8? (n : Int) : Option UInt8 :=
  if 0 ≤ n ∧ n < 256 then some (UInt8.ofNat n.toNat) else none

def toInt8? (n : Int) : Option Int8 :=
  if -128 ≤ n ∧ n < 128 then some (Int8.ofInt n) else none

def toInt32? (n : Int) : Option Int32 :=
  if -2147483648 ≤ n ∧ n < 2147483648 then some (Int32.ofInt n) else none

def toInt64? (n : Int) : Option Int64 :=
  if -9223372036854775808 ≤ n ∧ n < 9223372036854775808 then some (Int64.ofInt n) else none

def toUInt64? (n : Nat) : Option UInt64 :=
  if n < 18446744073709551616 then some (UInt64.ofNat n) else none

def readUInt8? (cs : List Char) : Option UInt8 :=
  (readNat? cs).bind fun n => toUInt8? n

def readInt8? (cs : List Char) : Option Int8 :=
  (readInt? cs).bind toInt8?

def readInt32? (cs : List Char) : Option Int32 :=
  (readInt? cs).bind toInt32?

def readInt64? (cs : List Char) : Option Int64 :=
  (readInt? cs).bind toInt64?

def readUInt64? (cs : List Char) : Option UInt64 :=
  (readNat? cs).bind toUInt64?

def hexDigit (n : Nat) : Char :=
  Nat.digitChar (n % 16)

/-- The value of a hexadecimal digit of either case. -/
def hexValue? (c : Char) : Option Nat :=
  if '0' ≤ c ∧ c ≤ '9' then some (c.toNat - '0'.toNat)
  else if 'a' ≤ c ∧ c ≤ 'f' then some (c.toNat - 'a'.toNat + 10)
  else if 'A' ≤ c ∧ c ≤ 'F' then some (c.toNat - 'A'.toNat + 10)
  else none

theorem readDigits?_eq_some {cs : List Char} {n : Nat} (h : readDigits? cs = some n) :
    cs ≠ [] ∧ ∀ c ∈ cs, c.isDigit = true := by
  simp only [readDigits?, isDigits, Option.ite_none_right_eq_some, Bool.and_eq_true,
    Bool.not_eq_true', List.isEmpty_eq_false_iff, List.all_eq_true] at h
  exact h.1

theorem hexValue?_hexDigit (n : Nat) : hexValue? (hexDigit n) = some (n % 16) := by
  have : ∀ k : Fin 16, hexValue? (Nat.digitChar k) = some k.val := by decide
  exact this ⟨n % 16, Nat.mod_lt _ (by decide)⟩

end Marshal
