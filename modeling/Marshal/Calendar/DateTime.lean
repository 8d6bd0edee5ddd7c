import Marshal.Calendar.Date
import Marshal.Calendar.Clock

/-!
A moment given by the local day and time of day and how far they are ahead of UTC.
-/

namespace Marshal

/-- Offsets stay below 26 hours. -/
def IsOffset (seconds : Int) : Prop :=
  -93600 < seconds ∧ seconds < 93600

instance (seconds : Int) : Decidable (IsOffset seconds) :=
  inferInstanceAs (Decidable (_ ∧ _))

structure DateTime where
  date : Date
  clock : Clock
  /-- Seconds ahead of UTC. -/
  offset : Int
  isOffset : IsOffset offset := by decide
  deriving DecidableEq

namespace DateTime

instance : Inhabited DateTime := ⟨⟨default, default, 0, by decide⟩⟩

def of? (date : Date) (clock : Clock) (offset : Int) : Option DateTime :=
  if h : IsOffset offset then some ⟨date, clock, offset, h⟩ else none

/-- The day `n` days later or, below zero, earlier. -/
def shiftDay? (d : Date) (n : Int) : Option Date :=
  let step := if n < 0 then Date.previous? else Date.next?
  (List.replicate n.natAbs ()).foldlM (fun d _ => step d) d

/-- Whether this is the last second of a month in UTC, the only place of a leap second. -/
def endsMonth (t : DateTime) : Bool :=
  let seconds : Int := t.clock.seconds - t.offset
  seconds % 86400 == 86399 &&
    match shiftDay? t.date (seconds / 86400) with
    | some d => d.endsMonth
    | none => false

/-- A moment from its parts. A leap second becomes the last nanosecond before it. -/
def ofParts? (date : Date) (hour minute second nanosecond : Nat) (offset : Int) :
    Option DateTime := do
  guard (nanosecond < nanosPerSecond)
  if second = 60 then
    let clock ← Clock.of? hour minute 59 999999999
    let t ← of? date clock offset
    guard t.endsMonth
    return t
  else
    let clock ← Clock.of? hour minute second nanosecond
    of? date clock offset

/-- Hours, minutes and seconds of the offset, without the sign. -/
def offsetParts (t : DateTime) : Nat × Nat × Nat :=
  (t.offset.natAbs / 3600, t.offset.natAbs / 60 % 60, t.offset.natAbs % 60)

/-- How a message shows a moment. -/
def debugChars (t : DateTime) : List Char :=
  let (h, m, s) := t.offsetParts
  t.date.chars ++ ' ' :: natChars t.clock.hour ++ ':' :: paddedChars 2 t.clock.minute ++
    ':' :: paddedChars 2 t.clock.second ++
    '.' :: (if t.clock.nanosecond = 0 then ['0'] else Clock.fractionChars t.clock.nanosecond) ++
    ' ' :: (if t.offset < 0 then '-' else '+') :: paddedChars 2 h ++
    ':' :: paddedChars 2 m ++ ':' :: paddedChars 2 s

def debugText (t : DateTime) : String :=
  String.ofList t.debugChars

end DateTime

end Marshal
