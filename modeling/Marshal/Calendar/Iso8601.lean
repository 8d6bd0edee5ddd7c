import Marshal.Calendar.Rfc3339
import Marshal.Number.Arithmetic

/-!
Moments as ISO 8601 has them, in the basic style without and the extended style with separators. The
last part of the time may have a fraction, which is read as a binary number.

A moment is read in any of the accepted forms: RFC 3339 first, then ISO 8601, then a local time
without an offset, which is taken as UTC.
-/

namespace Marshal.Iso8601

/-- Four digits, or a sign and six. -/
def year? (cs : List Char) : Option (Int × List Char) :=
  match Text.sign? cs with
  | some (negative, cs) => (Text.digits? 6 cs).map fun (n, cs) => (Text.negateIf negative n, cs)
  | none => (Text.digits? 4 cs).map fun (n, cs) => (n, cs)

/-- Skips a separator in the extended style. -/
def separator? (extended : Bool) (c : Char) (cs : List Char) : Option (List Char) :=
  if extended then Text.char? c cs else some cs

/-- The ways to name a day of a year. -/
inductive Day
  | inMonth (month day : Nat)
  | ordinal (n : Nat)
  | inWeek (week weekday : Nat)

def Day.date? (year : Int) : Day → Option Date
  | inMonth month day => Date.of? year month day
  | ordinal n => if n = 0 then none else Date.ofOrdinal? year n
  | inWeek week weekday => Date.ofWeek? year week weekday

def monthDay? (extended : Bool) (cs : List Char) : Option (Day × List Char) := do
  let (month, cs) ← Text.digits? 2 cs
  guard (1 ≤ month ∧ month ≤ 12)
  let (day, cs) ← separator? extended '-' cs >>= Text.digits? 2
  guard (day ≠ 0)
  return (.inMonth month day, cs)

def ordinal? (cs : List Char) : Option (Day × List Char) := do
  let (n, cs) ← Text.digits? 3 cs
  guard (n ≠ 0)
  return (.ordinal n, cs)

def weekDay? (extended : Bool) (cs : List Char) : Option (Day × List Char) := do
  let (week, cs) ← Text.char? 'W' cs >>= Text.digits? 2
  let (weekday, cs) ← separator? extended '-' cs >>= Text.digits? 1
  return (.inWeek week weekday, cs)

/-- A day, and whether a hyphen after the year makes the style extended. -/
def date? (cs : List Char) : Option (Date × Bool × List Char) := do
  let (year, cs) ← year? cs
  let (extended, cs) := match cs with
    | '-' :: cs => (true, cs)
    | cs => (false, cs)
  let (day, cs) ← monthDay? extended cs <|> ordinal? cs <|> weekDay? extended cs
  let date ← day.date? year
  return (date, extended, cs)

/-- Adds up the digits of a fraction, each over its own power of ten. -/
def fractionFrom (sum divisor : Double) : List Char → Double
  | [] => sum
  | c :: cs =>
    let divisor := divisor.times (.ofNat 10)
    fractionFrom (sum.plus (.dividedBy (c.toNat - '0'.toNat) divisor)) divisor cs

def fraction : List Char → Double
  | [] => .ofNat 0
  | c :: cs => fractionFrom (.dividedBy (c.toNat - '0'.toNat) (.ofNat 10)) (.ofNat 10) cs

/-- Two digits, and a fraction after a point or a comma. -/
def part? (cs : List Char) : Option (Nat × Option Double × List Char) := do
  let (n, cs) ← Text.digits? 2 cs
  match cs with
  | '.' :: cs | ',' :: cs =>
    let (ds, cs) ← Text.someDigits? cs
    return (n, some (fraction ds), cs)
  | cs => return (n, none, cs)

/-- Hour, minute, second and nanosecond as written. -/
abbrev Parts := Nat × Nat × Nat × Nat

/-- A fraction of an hour. -/
def hourParts (hour : Nat) (f : Double) : Parts :=
  (hour, (f.times (.ofNat 60)).floor, (f.times (.ofNat 3600)).floor % 60,
    (f.times (.ofNat 3600000000000)).floor % 1000000000)

/-- A fraction of a minute. -/
def minuteParts (hour minute : Nat) (f : Double) : Parts :=
  (hour, minute, (f.times (.ofNat 60)).floor, (f.times (.ofNat 60000000000)).floor % 1000000000)

def secondParts (hour minute second : Nat) (f : Double) : Parts :=
  (hour, minute, second, (f.times (.ofNat 1000000000)).round)

/-- The seconds; in the basic style they may be missing. -/
def seconds? (extended : Bool) (hour minute : Nat) (cs : List Char) :
    Option (Parts × List Char) :=
  match part? cs with
  | some (second, none, cs) => some ((hour, minute, second, 0), cs)
  | some (second, some f, cs) => some (secondParts hour minute second f, cs)
  | none => if extended then none else some ((hour, minute, 0, 0), cs)

/-- Minutes and seconds; in the basic style the minutes may be missing, in the extended style the
seconds with their colon. -/
def minutes? (extended : Bool) (hour : Nat) (cs : List Char) : Option (Parts × List Char) :=
  match part? cs with
  | some (minute, none, cs) =>
    if extended then
      match cs with
      | ':' :: cs => seconds? extended hour minute cs
      | cs => some ((hour, minute, 0, 0), cs)
    else seconds? extended hour minute cs
  | some (minute, some f, cs) => some (minuteParts hour minute f, cs)
  | none => if extended then none else some ((hour, 0, 0, 0), cs)

def time? (extended : Bool) (cs : List Char) : Option (Parts × List Char) := do
  let (hour, fraction, cs) ← part? cs
  match fraction, cs with
  | some f, cs => return (hourParts hour f, cs)
  | none, ':' :: cs => if extended then minutes? extended hour cs else none
  | none, cs => minutes? extended hour cs

def offset? (extended : Bool) : List Char → Option (Int × List Char)
  | 'Z' :: cs => some (0, cs)
  | cs => do
    let (negative, cs) ← Text.sign? cs
    let (h, cs) ← Text.digits? 2 cs
    guard (h ≤ 25)
    let cs := match cs with
      | ':' :: r => if extended then r else cs
      | _ => cs
    match Text.digits? 2 cs with
    | some (m, cs) =>
      guard (m < 60)
      return (Text.negateIf negative (h * 3600 + m * 60), cs)
    | none => return (Text.negateIf negative (h * 3600), cs)

def ofChars? (cs : List Char) : Option DateTime := do
  let (date, extended, cs) ← date? cs
  let ((hour, minute, second, nanosecond), cs) ← Text.char? 'T' cs >>= time? extended
  let (offset, cs) ← offset? extended cs
  guard cs.isEmpty
  DateTime.ofParts? date hour minute second nanosecond offset

end Marshal.Iso8601

namespace Marshal.DateTime

/-- `YYYY-MM-DDThh:mm:ss` with or without a fraction, taken as UTC. -/
def ofLocal? (cs : List Char) : Option DateTime := do
  let (date, cs) ← Date.take? cs
  let cs ← Text.char? 'T' cs
  let clock ← Clock.withFraction? cs <|> Clock.toSecond? cs
  of? date clock 0

def ofChars? (cs : List Char) : Option DateTime :=
  Rfc3339.ofChars? cs <|> Iso8601.ofChars? cs <|> ofLocal? cs

/-- Blanks may stand around. -/
def ofString? (s : String) : Option DateTime :=
  ofChars? (Text.trimChars s.toList)

end Marshal.DateTime
