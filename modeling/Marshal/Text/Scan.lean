import Marshal.Number.Digits

/-!
Small readers that take something off the front of a text and give back the rest.
-/

namespace Marshal.Text

/-- Exactly `n` digits. -/
def digits? (n : Nat) (cs : List Char) : Option (Nat × List Char) :=
  if (cs.take n).length = n ∧ (cs.take n).all Char.isDigit then
    some (Nat.ofDigitChars 10 (cs.take n) 0, cs.drop n)
  else none

/-- The character `c`. -/
def char? (c : Char) : List Char → Option (List Char)
  | [] => none
  | d :: cs => if d = c then some cs else none

/-- A sign; `true` for minus. -/
def sign? : List Char → Option (Bool × List Char)
  | '-' :: cs => some (true, cs)
  | '+' :: cs => some (false, cs)
  | _ => none

/-- One or more digits. -/
def someDigits? (cs : List Char) : Option (List Char × List Char) :=
  match cs.takeWhile Char.isDigit with
  | [] => none
  | ds => some (ds, cs.dropWhile Char.isDigit)

def negateIf (negative : Bool) (n : Nat) : Int :=
  if negative then -n else n

@[simp] theorem char?_cons (c : Char) (cs : List Char) : char? c (c :: cs) = some cs := by
  simp [char?]

end Marshal.Text
