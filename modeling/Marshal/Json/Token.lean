import Marshal.Json.Value

/-!
The tokens of a JSON text. A machine takes the text one character at a time; names and numbers are
the longest runs of letters, digits, signs and points.
-/

namespace Marshal.Json

inductive Token
  | beginArray
  | endArray
  | beginObject
  | endObject
  | comma
  | colon
  /-- A value that is a token of its own. -/
  | scalar (v : Json)
  deriving Inhabited

namespace Token

/-- The digits of a whole part: a zero stands alone. -/
def wholePart? (cs : List Char) : Option (List Char × List Char) :=
  match cs.takeWhile Char.isDigit with
  | [] => none
  | '0' :: _ :: _ => none
  | ds => some (ds, cs.dropWhile Char.isDigit)

/-- A point and digits, or nothing. -/
def fractionPart? : List Char → Option (List Char × List Char)
  | '.' :: cs =>
    match cs.takeWhile Char.isDigit with
    | [] => none
    | ds => some ('.' :: ds, cs.dropWhile Char.isDigit)
  | cs => some ([], cs)

/-- The exponent, written with a small letter and a sign. -/
def exponentPart? : List Char → Option (List Char)
  | [] => some []
  | e :: cs =>
    if e = 'e' ∨ e = 'E' then
      let (sign, ds) := match cs with
        | '-' :: ds => ('-', ds)
        | '+' :: ds => ('+', ds)
        | ds => ('+', ds)
      if isDigits ds then some ('e' :: sign :: ds) else none
    else none

def unsignedNumber? (cs : List Char) : Option (List Char) := do
  let (w, cs) ← wholePart? cs
  let (f, cs) ← fractionPart? cs
  let e ← exponentPart? cs
  return w ++ f ++ e

/-- The text that is kept of a number. -/
def number? : List Char → Option (List Char)
  | '-' :: cs => (unsignedNumber? cs).map ('-' :: ·)
  | cs => unsignedNumber? cs

/-- A name or a number. -/
def word? (cs : List Char) : Option Token :=
  if cs = "null".toList then some (.scalar .null)
  else if cs = "true".toList then some (.scalar (.bool true))
  else if cs = "false".toList then some (.scalar (.bool false))
  else (number? cs).map fun t => .scalar (.number (String.ofList t))

def isWordChar (c : Char) : Bool :=
  c.isAlphanum || c == '-' || c == '+' || c == '.'

def isSpace (c : Char) : Bool :=
  c == ' ' || c == '\t' || c == '\n' || c == '\r'

/-- Where a scan stands. The characters of a string or word so far are kept last first. -/
inductive Scan
  | between
  | word (got : List Char)
  | string (got : List Char)
  | escape (got : List Char)
  /-- Within a code unit of four digits, perhaps after the first unit of a pair. -/
  | unit (got : List Char) (high : Option Nat) (digits value : Nat)
  /-- After the first unit of a pair, before and after the backslash of the second. -/
  | pair (got : List Char) (high : Nat)
  | pairEscape (got : List Char) (high : Nat)

/-- A character between tokens. -/
def start? (c : Char) : Option (List Token × Scan) :=
  if isSpace c then some ([], .between)
  else if c = '[' then some ([.beginArray], .between)
  else if c = ']' then some ([.endArray], .between)
  else if c = '{' then some ([.beginObject], .between)
  else if c = '}' then some ([.endObject], .between)
  else if c = ',' then some ([.comma], .between)
  else if c = ':' then some ([.colon], .between)
  else if c = '"' then some ([], .string [])
  else if isWordChar c then some ([], .word [c])
  else none

/-- The character that a letter after a backslash stands for. -/
def escaped? : Char → Option Char
  | '"' => some '"'
  | '\\' => some '\\'
  | '/' => some '/'
  | 'b' => some (Char.ofNat 8)
  | 'f' => some (Char.ofNat 12)
  | 'n' => some '\n'
  | 'r' => some '\r'
  | 't' => some '\t'
  | _ => none

/-- What follows a whole code unit. Units of a pair come in order, and neither alone. -/
def afterUnit? (got : List Char) (high : Option Nat) (u : Nat) : Option Scan :=
  let isHigh := 0xD800 ≤ u && u < 0xDC00
  let isLow := 0xDC00 ≤ u && u < 0xE000
  match high with
  | none =>
    if isHigh then some (.pair got u)
    else if isLow then none
    else some (.string (Char.ofNat u :: got))
  | some h =>
    if isLow then some (.string (Char.ofNat (0x10000 + (h - 0xD800) * 0x400 + (u - 0xDC00)) :: got))
    else none

def Scan.next? : Scan → Char → Option (List Token × Scan)
  | .between, c => start? c
  | .word got, c =>
    if isWordChar c then some ([], .word (c :: got))
    else do
      let t ← word? got.reverse
      let (ts, s) ← start? c
      return (t :: ts, s)
  | .string got, c =>
    if c = '"' then some ([.scalar (.string (String.ofList got.reverse))], .between)
    else if c = '\\' then some ([], .escape got)
    else if c.toNat < 0x20 then none
    else some ([], .string (c :: got))
  | .escape got, c =>
    if c = 'u' then some ([], .unit got none 0 0)
    else (escaped? c).map fun d => ([], .string (d :: got))
  | .unit got high digits value, c => do
    let d ← hexValue? c
    let value := value * 16 + d
    if digits = 3 then
      let s ← afterUnit? got high value
      return ([], s)
    else return ([], .unit got high (digits + 1) value)
  | .pair got high, c => if c = '\\' then some ([], .pairEscape got high) else none
  | .pairEscape got high, c => if c = 'u' then some ([], .unit got (some high) 0 0) else none

def scan? : Scan → List Char → Option (List Token)
  | .between, [] => some []
  | .word got, [] => (word? got.reverse).map ([·])
  | _, [] => none
  | s, c :: cs => do
    let (ts, s) ← s.next? c
    let rest ← scan? s cs
    return ts ++ rest

end Token

def tokens? (cs : List Char) : Option (List Token) :=
  Token.scan? .between cs

end Marshal.Json
