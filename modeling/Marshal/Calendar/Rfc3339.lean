import Marshal.Calendar.DateTime

/-!
Moments as RFC 3339 has them: `YYYY-MM-DDThh:mm:ss`, a fraction if there is one, and `Z` or an
offset of hours and minutes.
-/

namespace Marshal.Rfc3339

/-- What the format has no room for. -/
inductive Obstacle
  | year
  | offsetHour
  | offsetSecond
  deriving DecidableEq

def Obstacle.name : Obstacle → String
  | year => "year"
  | offsetHour => "offset_hour"
  | offsetSecond => "offset_second"

/-- The first part of a moment that cannot be written. -/
def obstacle? (t : DateTime) : Option Obstacle :=
  let (h, _, s) := t.offsetParts
  if t.date.year < 0 then some .year
  else if 23 < h then some .offsetHour
  else if s ≠ 0 then some .offsetSecond
  else none

def offsetChars (t : DateTime) : List Char :=
  let (h, m, _) := t.offsetParts
  if t.offset = 0 then ['Z']
  else (if t.offset < 0 then '-' else '+') :: paddedChars 2 h ++ ':' :: paddedChars 2 m

def chars (t : DateTime) : List Char :=
  t.date.chars ++ 'T' :: t.clock.chars ++ offsetChars t

def format (t : DateTime) : Except Obstacle String :=
  match obstacle? t with
  | some o => .error o
  | none => .ok (String.ofList (chars t))

/-- The nanoseconds after an optional point. -/
def fraction? : List Char → Option (Nat × List Char)
  | '.' :: cs => (Text.someDigits? cs).map fun (ds, cs) => (Clock.nanosOfFraction ds, cs)
  | cs => some (0, cs)

def offset? : List Char → Option (Int × List Char)
  | 'Z' :: cs | 'z' :: cs => some (0, cs)
  | cs => do
    let (negative, cs) ← Text.sign? cs
    let (h, cs) ← Text.digits? 2 cs
    let (m, cs) ← Text.char? ':' cs >>= Text.digits? 2
    guard (h < 24 ∧ m < 60)
    return (Text.negateIf negative (h * 3600 + m * 60), cs)

/-- Between day and time stands any one byte. -/
def separator? : List Char → Option (List Char)
  | [] => none
  | c :: cs => if c.toNat < 0x80 then some cs else none

def ofChars? (cs : List Char) : Option DateTime := do
  let (year, cs) ← Text.digits? 4 cs
  let (month, cs) ← Text.char? '-' cs >>= Text.digits? 2
  let (day, cs) ← Text.char? '-' cs >>= Text.digits? 2
  let (hour, cs) ← separator? cs >>= Text.digits? 2
  let (minute, cs) ← Text.char? ':' cs >>= Text.digits? 2
  let (second, cs) ← Text.char? ':' cs >>= Text.digits? 2
  let (nanosecond, cs) ← fraction? cs
  let (offset, cs) ← offset? cs
  guard cs.isEmpty
  let date ← Date.of? year month day
  DateTime.ofParts? date hour minute second nanosecond offset

end Marshal.Rfc3339
