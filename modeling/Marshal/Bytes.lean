/-!
Byte strings and the texts they spell in UTF-8. Reading is strict (`text?`) or lossy (`lossyText`),
where every longest beginning of a character that does not go on becomes U+FFFD.
-/

namespace Marshal

abbrev Bytes := List UInt8

namespace Bytes

def ofString (s : String) : Bytes :=
  s.toUTF8.data.toList

/-- The text that `b` spells, if it is well formed. -/
def text? (b : Bytes) : Option String :=
  String.fromUTF8? ⟨b.toArray⟩

@[simp] theorem text?_ofString (s : String) : text? (ofString s) = some s := by
  have h : (⟨s.toUTF8.data.toList.toArray⟩ : ByteArray) = s.toByteArray := by
    cases hs : s.toByteArray
    simp [String.toUTF8, hs]
  simp only [text?, ofString, h, String.fromUTF8?]
  rw [dif_pos s.isValidUTF8]
  rfl

@[simp] theorem ofString_empty : ofString "" = [] := rfl

/-- What a reader of UTF-8 still waits for: nothing, or `need` bytes more, the next of them between
`lo` and `hi`, after the bits in `got`. -/
inductive Pending
  | start
  | tail (need lo hi got : Nat)

/-- The character that stands for what could not be read. -/
def replacement : Char := Char.ofNat 0xFFFD

/-- A byte at the start of a character. -/
def Pending.lead (b : Nat) : List Char × Pending :=
  if b < 0x80 then ([Char.ofNat b], .start)
  else if 0xC2 ≤ b ∧ b ≤ 0xDF then ([], .tail 1 0x80 0xBF (b % 32))
  else if b = 0xE0 then ([], .tail 2 0xA0 0xBF 0)
  else if b = 0xED then ([], .tail 2 0x80 0x9F 0xD)
  else if 0xE1 ≤ b ∧ b ≤ 0xEF then ([], .tail 2 0x80 0xBF (b % 16))
  else if b = 0xF0 then ([], .tail 3 0x90 0xBF 0)
  else if 0xF1 ≤ b ∧ b ≤ 0xF3 then ([], .tail 3 0x80 0xBF (b % 8))
  else if b = 0xF4 then ([], .tail 3 0x80 0x8F 4)
  else ([replacement], .start)

/-- The characters that byte `b` completes, and what is waited for after it. -/
def Pending.next : Pending → Nat → List Char × Pending
  | .start, b => lead b
  | .tail need lo hi got, b =>
    if lo ≤ b ∧ b ≤ hi then
      let got := got * 64 + b % 64
      if need ≤ 1 then ([Char.ofNat got], .start) else ([], .tail (need - 1) 0x80 0xBF got)
    else
      let (out, p) := lead b
      (replacement :: out, p)

def lossyFrom : Pending → Bytes → List Char
  | .start, [] => []
  | .tail .., [] => [replacement]
  | p, b :: bs =>
    let (out, p) := p.next b.toNat
    out ++ lossyFrom p bs

def lossyText (b : Bytes) : String :=
  String.ofList (lossyFrom .start b)

end Bytes

end Marshal
