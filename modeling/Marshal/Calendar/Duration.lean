import Marshal.Calendar.Clock
import Marshal.Text.Split

/-!
Lengths of time to the nanosecond, and their ISO 8601 texts such as `P1DT2H3M4.5S`. A year has 365
days and a month 30. The whole seconds of a duration fit 64 bits.
-/

namespace Marshal

/-- One more than the largest number of whole seconds. -/
abbrev secondsLimit : Nat := 9223372036854775808

/-- Nanoseconds whose whole seconds fit. -/
def IsDuration (nanos : Int) : Prop :=
  -((secondsLimit + 1) * nanosPerSecond : Nat) < nanos ∧
    nanos < (secondsLimit * nanosPerSecond : Nat)

instance (nanos : Int) : Decidable (IsDuration nanos) :=
  inferInstanceAs (Decidable (_ ∧ _))

structure Duration where
  nanos : Int
  isDuration : IsDuration nanos := by decide
  deriving DecidableEq

namespace Duration

def zero : Duration := ⟨0, by decide⟩

instance : Inhabited Duration := ⟨zero⟩

def of? (nanos : Int) : Option Duration :=
  if h : IsDuration nanos then some ⟨nanos, h⟩ else none

/-- Whole seconds, toward zero. -/
def seconds (d : Duration) : Int :=
  d.nanos.tdiv nanosPerSecond

/-- What the whole seconds leave, of the same sign. -/
def subsec (d : Duration) : Int :=
  d.nanos.tmod nanosPerSecond

/-- The length without its sign; past the longest duration it stays there. -/
def magnitude (d : Duration) : Nat :=
  min d.nanos.natAbs (secondsLimit * nanosPerSecond - 1)

/-- A count and its unit, unless the count is zero. -/
def countChars (n : Nat) (unit : Char) : List Char :=
  if n = 0 then [] else natChars n ++ [unit]

/-- Seconds and their fraction, unless both are zero. -/
def secondsChars (seconds nanos : Nat) : List Char :=
  if seconds = 0 ∧ nanos = 0 then []
  else natChars seconds ++
    (if nanos = 0 then [] else '.' :: Clock.fractionChars nanos) ++ ['S']

/-- Days, hours, minutes and seconds, without those that are zero. -/
def chars (d : Duration) : List Char :=
  if d.nanos = 0 then "PT0S".toList
  else
    let s := d.magnitude / nanosPerSecond
    let time := countChars (s / 3600 % 24) 'H' ++ countChars (s / 60 % 60) 'M' ++
      secondsChars (s % 60) (d.magnitude % nanosPerSecond)
    (if d.nanos < 0 then ['-'] else []) ++ 'P' :: countChars (s / 86400) 'D' ++
      (if time.isEmpty then [] else 'T' :: time)

def text (d : Duration) : String :=
  String.ofList d.chars

/-- A number, still as text, and the unit after it in upper case. -/
abbrev Component := List Char × Char

def isNumberChar (c : Char) : Bool :=
  c.isDigit || c == '.' || c == ','

/-- Cuts a text into numbers with their units, `number` being what the current one begins with. -/
def componentsFrom (number : List Char) : List Char → Option (List Component)
  | [] => if number.isEmpty then some [] else none
  | c :: cs =>
    if isNumberChar c then componentsFrom (number ++ [c]) cs
    else if number.isEmpty then none
    else (componentsFrom [] cs).map ((number, c.toUpper) :: ·)

def components? (cs : List Char) : Option (List Component) :=
  componentsFrom [] cs

/-- A whole number of seconds that fits. -/
def fits? (n : Nat) : Option Nat :=
  if n < secondsLimit then some n else none

/-- A whole number of units of `seconds` each. -/
def whole? (number : List Char) (seconds : Nat) : Option Nat := do
  let n ← readDigits? number >>= fits?
  let n ← fits? (n * seconds)
  return n * nanosPerSecond

def daysIn : Char → Option Nat
  | 'Y' => some 365
  | 'M' => some 30
  | 'W' => some 7
  | 'D' => some 1
  | _ => none

/-- A component before the `T`, in nanoseconds. Both products have to fit. -/
def datePart? (c : Component) : Option Nat := do
  let days ← daysIn c.2
  let n ← readDigits? c.1 >>= fits?
  let n ← fits? (n * days)
  let n ← fits? (n * 86400)
  return n * nanosPerSecond

/-- What stands before and after the first point or comma. -/
def cutPoint (cs : List Char) : List Char × List Char :=
  (cs.takeWhile fun c => c != '.' && c != ',', (cs.dropWhile fun c => c != '.' && c != ',').drop 1)

/-- Seconds with an optional fraction; digits after the ninth are not looked at. -/
def seconds? (number : List Char) : Option Nat := do
  let (w, f) := cutPoint number
  let n ← if w.isEmpty then some 0 else readDigits? w >>= fits?
  let f := f.take 9
  let nanos ← if f.isEmpty then some 0 else readDigits? f
  return n * nanosPerSecond + nanos * Nat.pow 10 (9 - f.length)

/-- A component after the `T`, in nanoseconds. -/
def timePart? (c : Component) : Option Nat :=
  match c.2 with
  | 'H' => whole? c.1 3600
  | 'M' => whole? c.1 60
  | 'S' => seconds? c.1
  | _ => none

/-- Adds lengths up, as long as the sum is a duration. -/
def total? (parts : List Nat) : Option Nat :=
  parts.foldlM (fun sum n =>
    if sum + n < secondsLimit * nanosPerSecond then some (sum + n) else none) 0

/-- The nanoseconds after `P`. -/
def body? (cs : List Char) : Option Nat := do
  let isT (c : Char) : Bool := c == 'T' || c == 't'
  let date := cs.takeWhile fun c => !isT c
  let dates ← components? date >>= List.mapM datePart?
  let times ← match cs.dropWhile fun c => !isT c with
    | [] => some []
    | [_] => none
    | _ :: time => components? time >>= List.mapM timePart?
  guard (!(dates ++ times).isEmpty)
  total? (dates ++ times)

def signed? (negative : Bool) : List Char → Option Duration
  | 'P' :: cs | 'p' :: cs => (body? cs).bind fun n => of? (if negative then -n else n)
  | _ => none

def ofChars? : List Char → Option Duration
  | '-' :: cs => signed? true cs
  | '+' :: cs => signed? false cs
  | cs => signed? false cs

/-- Blanks may stand around, and letters may be of either case. -/
def ofString? (s : String) : Option Duration :=
  ofChars? (Text.trimChars s.toList)

end Duration

end Marshal
