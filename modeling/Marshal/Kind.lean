import Marshal.Bytes.Base64
import Marshal.Guid
import Marshal.Decimal
import Marshal.Number.Numeral
import Marshal.Calendar.Iso8601
import Marshal.Calendar.Duration
import Marshal.Text.Case
import Marshal.Error

/-!
The kinds of scalar that a field may have, and their texts. A text is read with the blanks around it
taken off; only a string is taken as it is.
-/

namespace Marshal

inductive Kind
  | string
  | bool
  | byte
  | sbyte
  | int
  | long
  | float
  | double
  | decimal
  | guid
  | date
  | time
  | dateTime
  | timeSpan
  | bytes
  deriving DecidableEq

namespace Kind

/-- The values of a kind. -/
@[reducible] def Carrier : Kind → Type
  | string => String
  | bool => Bool
  | byte => UInt8
  | sbyte => Int8
  | int => Int32
  | long => Int64
  | float => Single
  | double => Double
  | decimal => Decimal
  | guid => Guid
  | date => Date
  | time => Clock
  | dateTime => DateTime
  | timeSpan => Duration
  | bytes => Bytes

/-- How an error names the kind. -/
def wanted : Kind → Wanted
  | string => .string
  | bool => .boolean
  | byte => .unsignedByte
  | sbyte => .signedByte
  | int => .integer32
  | long => .integer64
  | float => .number
  | double => .number
  | decimal => .decimal
  | guid => .guid
  | date => .date
  | time => .time
  | dateTime => .dateTime
  | timeSpan => .timeSpan
  | bytes => .bytes

/-- Whether an error shows the text without the blanks around it. -/
def showsTrimmed : Kind → Bool
  | byte | sbyte | int | long | float | double | decimal => true
  | _ => false

/-- `true` or `false` in any letter case. -/
def readBool? (s : String) : Option Bool :=
  if Text.eqIgnoringCase s "true" then some true
  else if Text.eqIgnoringCase s "false" then some false
  else none

/-- Reads a text without blanks around it. -/
def ofTrimmed? : (k : Kind) → String → Option k.Carrier
  | string, s => some s
  | bool, s => readBool? s
  | byte, s => readUInt8? s.toList
  | sbyte, s => readInt8? s.toList
  | int, s => readInt32? s.toList
  | long, s => readInt64? s.toList
  | float, s => Single.ofChars? s.toList
  | double, s => Double.ofChars? s.toList
  | decimal, s => Decimal.ofChars? s.toList
  | guid, s => Guid.ofString? s
  | date, s => Date.ofString? s
  | time, s => Clock.ofString? s
  | dateTime, s => DateTime.ofString? s
  | timeSpan, s => Duration.ofString? s
  | bytes, s => Base64.decode? s

/-- Reads the text of a scalar found at `path`. -/
def ofText (path : String) : (k : Kind) → String → Result k.Carrier
  | string, s => .ok s
  | k, s =>
    match k.ofTrimmed? (Text.trim s) with
    | some v => .ok v
    | none =>
      .error (.parse path (.expected k.wanted (.text (if k.showsTrimmed then Text.trim s else s))))

/-- As `ofText`; an absent text is an absent value. -/
def ofText? (path : String) (k : Kind) : Option String → Result (Option k.Carrier)
  | none => .ok none
  | some s => (k.ofText path s).map some

end Kind

end Marshal
