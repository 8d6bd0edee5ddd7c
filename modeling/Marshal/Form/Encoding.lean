import Marshal.Bytes
import Marshal.Number.Digits

/-!
Lists of named values as `name=value&name=value`. A space is written as a plus sign, letters, digits
and `*-._` stay, and every other byte is a percent sign and two digits.
-/

namespace Marshal.Form

abbrev Pairs := List (String × String)

def plainByte (b : UInt8) : Bool :=
  let c := Char.ofNat b.toNat
  c.isAlphanum || c == '*' || c == '-' || c == '.' || c == '_'

/-- A capital digit. -/
def percentDigit (n : Nat) : Char :=
  (hexDigit n).toUpper

def encodeByte (b : UInt8) : List Char :=
  if plainByte b then [Char.ofNat b.toNat]
  else if b = 0x20 then ['+']
  else ['%', percentDigit (b.toNat / 16), percentDigit b.toNat]

def encodeChars (s : String) : List Char :=
  (Bytes.ofString s).flatMap encodeByte

def pairChars (p : String × String) : List Char :=
  encodeChars p.1 ++ '=' :: encodeChars p.2

/-- The pairs with an ampersand between them. -/
def encode (pairs : Pairs) : List Char :=
  ['&'].intercalate (pairs.map pairChars)

/-- The byte that two digits at the front stand for. -/
def escaped? : Bytes → Option UInt8
  | hi :: lo :: _ => do
    let h ← hexValue? (Char.ofNat hi.toNat)
    let l ← hexValue? (Char.ofNat lo.toNat)
    return UInt8.ofNat (h * 16 + l)
  | _ => none

/-- The bytes that a name or value stands for after `skip` of its own have been passed over; a
percent sign without two digits stays. -/
def decodeFrom : Nat → Bytes → Bytes
  | _, [] => []
  | skip + 1, _ :: bs => decodeFrom skip bs
  | 0, b :: bs =>
    if b = 0x2B then 0x20 :: decodeFrom 0 bs
    else if b = 0x25 then
      match escaped? bs with
      | some x => x :: decodeFrom 2 bs
      | none => b :: decodeFrom 0 bs
    else b :: decodeFrom 0 bs

def decodeBytes (b : Bytes) : Bytes :=
  decodeFrom 0 b

def decodeText (b : Bytes) : String :=
  Bytes.lossyText (decodeBytes b)

/-- The pieces between ampersands that are not empty. -/
def pieces (b : Bytes) : List Bytes :=
  (b.splitOnP (· == 0x26)).filter (!·.isEmpty)

/-- A name, and a value after the first equals sign. -/
def decodePair (b : Bytes) : String × String :=
  (decodeText (b.takeWhile (· != 0x3D)), decodeText ((b.dropWhile (· != 0x3D)).drop 1))

def decode (b : Bytes) : Pairs :=
  (pieces b).map decodePair

end Marshal.Form
