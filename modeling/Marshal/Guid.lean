import Marshal.Number.Digits

/-!
Globally unique identifiers: 128 bits, written as 32 hexadecimal digits in five groups.
-/

namespace Marshal

structure Guid where
  bits : BitVec 128
  deriving DecidableEq, Inhabited

namespace Guid

/-- The value of a row of hexadecimal digits. -/
def hexNat? (cs : List Char) : Option Nat :=
  cs.foldlM (fun n c => (hexValue? c).map (n * 16 + ·)) 0

/-- The last `n` hexadecimal digits of `v`. -/
def hexRow : Nat → Nat → List Char
  | 0, _ => []
  | n + 1, v => hexRow n (v / 16) ++ [hexDigit v]

def digits (g : Guid) : List Char :=
  hexRow 32 g.bits.toNat

/-- Puts hyphens after 8, 12, 16 and 20 digits. -/
def hyphenate (cs : List Char) : List Char :=
  cs.take 8 ++ '-' :: (cs.drop 8).take 4 ++ '-' :: (cs.drop 12).take 4 ++
    '-' :: (cs.drop 16).take 4 ++ '-' :: cs.drop 20

def text (g : Guid) : String :=
  String.ofList (hyphenate g.digits)

def ofDigits? (cs : List Char) : Option Guid :=
  if cs.length = 32 then (hexNat? cs).map fun n => ⟨BitVec.ofNat 128 n⟩ else none

/-- Reads the form with four hyphens. -/
def ofHyphenated? (cs : List Char) : Option Guid :=
  let ds := cs.take 8 ++ (cs.drop 9).take 4 ++ (cs.drop 14).take 4 ++ (cs.drop 19).take 4 ++
    cs.drop 24
  if hyphenate ds = cs then ofDigits? ds else none

/-- Reads the forms with hyphens, without them, with hyphens in braces, and with hyphens after
`urn:uuid:` in any letter case. -/
def ofChars? (cs : List Char) : Option Guid :=
  if cs.length = 32 then ofDigits? cs
  else if cs.length = 36 then ofHyphenated? cs
  else if cs.length = 38 ∧ cs.head? = some '\x7b' ∧ cs.getLast? = some '\x7d' then
    ofHyphenated? (cs.drop 1).dropLast
  else if cs.length = 45 ∧ (cs.take 9).map Char.toLower = "urn:uuid:".toList then
    ofHyphenated? (cs.drop 9)
  else none

def ofString? (s : String) : Option Guid :=
  ofChars? s.toList

/-- An identifier of version 4, made of the 122 bits of a seed. -/
def ofSeed (seed : BitVec 122) : Guid :=
  ⟨seed.extractLsb' 74 48 ++ 0x4#4 ++ seed.extractLsb' 62 12 ++ 0x2#2 ++ seed.extractLsb' 0 62⟩

/-- The digits without hyphens. -/
def plainText (g : Guid) : String :=
  String.ofList g.digits

@[simp] theorem length_hexRow (n v : Nat) : (hexRow n v).length = n := by
  induction n generalizing v with
  | zero => rfl
  | succ n ih => simp [hexRow, ih]

@[simp] theorem length_digits (g : Guid) : g.digits.length = 32 :=
  length_hexRow 32 _

end Guid

end Marshal
