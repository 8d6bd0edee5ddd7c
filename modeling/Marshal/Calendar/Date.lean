import Marshal.Text.Scan
import Marshal.Text.Blank

/-!
Days of the Gregorian calendar, years -9999 to 9999. A day is named by month and day of the month,
by its place in the year, or by week and day of the week.
-/

namespace Marshal

def isLeapYear (year : Int) : Bool :=
  year % 4 == 0 && (year % 100 != 0 || year % 400 == 0)

def monthLength (year : Int) (month : Nat) : Nat :=
  match month with
  | 4 | 6 | 9 | 11 => 30
  | 2 => if isLeapYear year then 29 else 28
  | _ => 31

def yearLength (year : Int) : Nat :=
  if isLeapYear year then 366 else 365

def IsDate (year : Int) (month day : Nat) : Prop :=
  -9999 ≤ year ∧ year ≤ 9999 ∧ 1 ≤ month ∧ month ≤ 12 ∧ 1 ≤ day ∧ day ≤ monthLength year month

instance (year : Int) (month day : Nat) : Decidable (IsDate year month day) :=
  inferInstanceAs (Decidable (_ ∧ _))

structure Date where
  year : Int
  month : Nat
  day : Nat
  isDate : IsDate year month day := by decide
  deriving DecidableEq

namespace Date

instance : Inhabited Date := ⟨⟨1970, 1, 1, by decide⟩⟩

def of? (year : Int) (month day : Nat) : Option Date :=
  if h : IsDate year month day then some ⟨year, month, day, h⟩ else none

/-- Days from the first of January of year 1, a Monday, to that of another year. -/
def newYear (year : Int) : Int :=
  365 * (year - 1) + (year - 1) / 4 - (year - 1) / 100 + (year - 1) / 400

/-- The day with `ordinal - 1` days of the year before it, where month `month` is reached. -/
def inMonths? (year : Int) (ordinal : Nat) : Nat → Nat → Option Date
  | 0, _ => none
  | left + 1, month =>
    if ordinal ≤ monthLength year month then of? year month ordinal
    else inMonths? year (ordinal - monthLength year month) left (month + 1)

def ofOrdinal? (year : Int) (ordinal : Nat) : Option Date :=
  inMonths? year ordinal 12 1

/-- The Monday of the week that the fourth of January is in. -/
def firstMonday (year : Int) : Int :=
  newYear year + 3 - (newYear year + 3) % 7

def weeksInYear (year : Int) : Nat :=
  ((firstMonday (year + 1) - firstMonday year) / 7).toNat

/-- The day of week `week`, Monday being day 1. -/
def ofWeek? (year : Int) (week weekday : Nat) : Option Date :=
  if 1 ≤ week ∧ week ≤ weeksInYear year ∧ 1 ≤ weekday ∧ weekday ≤ 7 then
    let ordinal := firstMonday year + 7 * (week - 1) + weekday - newYear year
    if ordinal < 1 then ofOrdinal? (year - 1) (ordinal + yearLength (year - 1)).toNat
    else if (yearLength year : Int) < ordinal then
      ofOrdinal? (year + 1) (ordinal - yearLength year).toNat
    else ofOrdinal? year ordinal.toNat
  else none

/-- Whether the next day begins a month. -/
def endsMonth (d : Date) : Bool :=
  d.day == monthLength d.year d.month

def next? (d : Date) : Option Date :=
  if !d.endsMonth then of? d.year d.month (d.day + 1)
  else if d.month = 12 then of? (d.year + 1) 1 1
  else of? d.year (d.month + 1) 1

def previous? (d : Date) : Option Date :=
  if d.day ≠ 1 then of? d.year d.month (d.day - 1)
  else if d.month = 1 then of? (d.year - 1) 12 31
  else of? d.year (d.month - 1) (monthLength d.year (d.month - 1))

def yearChars (year : Int) : List Char :=
  (if year < 0 then ['-'] else []) ++ paddedChars 4 year.natAbs

/-- `YYYY-MM-DD`, with a minus sign before years below zero. -/
def chars (d : Date) : List Char :=
  yearChars d.year ++ '-' :: paddedChars 2 d.month ++ '-' :: paddedChars 2 d.day

def text (d : Date) : String :=
  String.ofList d.chars

/-- Four digits after an optional sign. -/
def takeYear? (cs : List Char) : Option (Int × List Char) :=
  match Text.sign? cs with
  | some (negative, cs) => do
    let (n, cs) ← Text.digits? 4 cs
    return (Text.negateIf negative n, cs)
  | none => do
    let (n, cs) ← Text.digits? 4 cs
    return (n, cs)

/-- Takes a date off the front of a text. -/
def take? (cs : List Char) : Option (Date × List Char) := do
  let (year, cs) ← takeYear? cs
  let (month, cs) ← Text.char? '-' cs >>= Text.digits? 2
  let (day, cs) ← Text.char? '-' cs >>= Text.digits? 2
  let d ← of? year month day
  return (d, cs)

def ofChars? (cs : List Char) : Option Date :=
  match take? cs with
  | some (d, []) => some d
  | _ => none

/-- Reads what `text` writes; the year may also have a plus sign, and blanks may stand around. -/
def ofString? (s : String) : Option Date :=
  ofChars? (Text.trimChars s.toList)

end Date

end Marshal
