import Marshal.Bytes

/-!
Base64 in the standard alphabet. The padding is required and the bits it leaves unused are zero, so
every byte string has one text.
-/

namespace Marshal.Base64

def digits : List Char :=
  "ABCDEFGHIJKLMNOPQRSTUVWXYZabcdefghijklmnopqrstuvwxyz0123456789+/".toList

def digit (n : Nat) : Char :=
  digits.getD (n % 64) '='

def value? (c : Char) : Option Nat :=
  digits.findIdx? (· == c)

def encodeChars : Bytes → List Char
  | [] => []
  | [a] => [digit (a.toNat / 4), digit (a.toNat % 4 * 16), '=', '=']
  | [a, b] =>
    [digit (a.toNat / 4), digit (a.toNat % 4 * 16 + b.toNat / 16), digit (b.toNat % 16 * 4), '=']
  | a :: b :: c :: rest =>
    digit (a.toNat / 4) :: digit (a.toNat % 4 * 16 + b.toNat / 16) ::
      digit (b.toNat % 16 * 4 + c.toNat / 64) :: digit c.toNat :: encodeChars rest

def encode (b : Bytes) : String :=
  String.ofList (encodeChars b)

def decodeChars? : List Char → Option Bytes
  | [] => some []
  | [a, b, '=', '='] => do
    let a ← value? a
    let b ← value? b
    guard (b % 16 = 0)
    return [UInt8.ofNat (a * 4 + b / 16)]
  | [a, b, c, '='] => do
    let a ← value? a
    let b ← value? b
    let c ← value? c
    guard (c % 4 = 0)
    return [UInt8.ofNat (a * 4 + b / 16), UInt8.ofNat (b % 16 * 16 + c / 4)]
  | a :: b :: c :: d :: rest => do
    let a ← value? a
    let b ← value? b
    let c ← value? c
    let d ← value? d
    let rest ← decodeChars? rest
    return UInt8.ofNat (a * 4 + b / 16) :: UInt8.ofNat (b % 16 * 16 + c / 4) ::
      UInt8.ofNat (c % 4 * 64 + d) :: rest
  | _ => none

def decode? (s : String) : Option Bytes :=
  decodeChars? s.toList

theorem value?_digit (n : Nat) : value? (digit n) = some (n % 64) := by
  have : ∀ k : Fin 64, value? (digit k) = some k.val := by decide +kernel
  have h := this ⟨n % 64, Nat.mod_lt _ (by decide)⟩
  simpa [digit] using h

theorem digit_ne_pad (n : Nat) : digit n ≠ '=' := by
  have : ∀ k : Fin 64, digit k ≠ '=' := by decide +kernel
  have h := this ⟨n % 64, Nat.mod_lt _ (by decide)⟩
  simpa [digit] using h

end Marshal.Base64
