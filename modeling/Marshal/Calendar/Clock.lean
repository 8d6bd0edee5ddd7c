import Marshal.Text.Scan
import Marshal.Text.Blank

/-!
Times of day to the nanosecond. A day has no second 60.
-/

namespace Marshal

abbrev nanosPerSecond : Nat := 1000000000

structure Clock where
  hour : Nat
  minute : Nat
  second : Nat
  nanosecond : Nat
  hour_lt : hour < 24 := by decide
  minute_lt : minute < 60 := by decide
  second_lt : second < 60 := by decide
  nanosecond_lt : nanosecond < nanosPerSecond := by decide
  deriving DecidableEq

namespace Clock

instance : Inhabited Clock := ⟨⟨0, 0, 0, 0, by decide, by decide, by decide, by decide⟩⟩

def of? (hour minute second nanosecond : Nat) : Option Clock :=
  if h : hour < 24 ∧ minute < 60 ∧ second < 60 ∧ nanosecond < nanosPerSecond then
    some ⟨hour, minute, second, nanosecond, h.1, h.2.1, h.2.2.1, h.2.2.2⟩
  else none

/-- Seconds since midnight. -/
def seconds (t : Clock) : Nat :=
  t.hour * 3600 + t.minute * 60 + t.second

/-- Nine digits without the zeros at the end. -/
def fractionChars (nanos : Nat) : List Char :=
  ((paddedChars 9 nanos).reverse.dropWhile (· == '0')).reverse

/-- The nanoseconds that digits after a point stand for; those after the ninth are ignored. -/
def nanosOfFraction (ds : List Char) : Nat :=
  Nat.ofDigitChars 10 (ds.take 9) 0 * Nat.pow 10 (9 - ds.length)

/-- `HH:MM:SS`, and a fraction if there is one. -/
def chars (t : Clock) : List Char :=
  paddedChars 2 t.hour ++ ':' :: paddedChars 2 t.minute ++ ':' :: paddedChars 2 t.second ++
    (if t.nanosecond = 0 then [] else '.' :: fractionChars t.nanosecond)

def text (t : Clock) : String :=
  String.ofList t.chars

/-- A fraction of a clock time has no more digits than this. -/
abbrev fractionLimit : Nat := 32

/-- `HH:MM:SS` with a fraction, which has to be there. -/
def withFraction? (cs : List Char) : Option Clock := do
  let (h, cs) ← Text.digits? 2 cs
  let (m, cs) ← Text.char? ':' cs >>= Text.digits? 2
  let (s, cs) ← Text.char? ':' cs >>= Text.digits? 2
  let (f, cs) ← Text.char? '.' cs >>= Text.someDigits?
  guard (f.length ≤ fractionLimit ∧ cs.isEmpty)
  of? h m s (nanosOfFraction f)

/-- `HH:MM:SS`. -/
def toSecond? (cs : List Char) : Option Clock := do
  let (h, cs) ← Text.digits? 2 cs
  let (m, cs) ← Text.char? ':' cs >>= Text.digits? 2
  let (s, cs) ← Text.char? ':' cs >>= Text.digits? 2
  guard cs.isEmpty
  of? h m s 0

/-- `HH:MM`. -/
def toMinute? (cs : List Char) : Option Clock := do
  let (h, cs) ← Text.digits? 2 cs
  let (m, cs) ← Text.char? ':' cs >>= Text.digits? 2
  guard cs.isEmpty
  of? h m 0 0

def ofChars? (cs : List Char) : Option Clock :=
  withFraction? cs <|> toSecond? cs <|> toMinute? cs

/-- Reads what `text` writes, and `HH:MM`; blanks may stand around. -/
def ofString? (s : String) : Option Clock :=
  ofChars? (Text.trimChars s.toList)

end Clock

end Marshal
