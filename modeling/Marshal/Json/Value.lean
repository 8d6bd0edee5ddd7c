import Marshal.Members
import Marshal.Number.Digits
import Marshal.Bytes
import Marshal.Text.Quoted

/-!
JSON values and their compact text. A number keeps the text it was written with.
-/

namespace Marshal

inductive Json
  | null
  | bool (b : Bool)
  | number (text : String)
  | string (s : String)
  | array (items : List Json)
  | object (members : List (String × Json))

namespace Json

instance : Inhabited Json := ⟨null⟩

/-- One character of a string. -/
def escapeChar (c : Char) : List Char :=
  if c = '"' then ['\\', '"']
  else if c = '\\' then ['\\', '\\']
  else if c = '\n' then ['\\', 'n']
  else if c = '\r' then ['\\', 'r']
  else if c = '\t' then ['\\', 't']
  else if c.toNat = 8 then ['\\', 'b']
  else if c.toNat = 12 then ['\\', 'f']
  else if c.toNat < 0x20 then ['\\', 'u', '0', '0', hexDigit (c.toNat / 16), hexDigit c.toNat]
  else [c]

def stringChars (s : String) : List Char :=
  '"' :: s.toList.flatMap escapeChar ++ ['"']

mutual

def chars : Json → List Char
  | null => "null".toList
  | bool b => (if b then "true" else "false").toList
  | number text => text.toList
  | string s => stringChars s
  | array [] => ['[', ']']
  | array (v :: vs) => '[' :: (chars v ++ itemChars vs)
  | object [] => ['{', '}']
  | object ((k, v) :: ms) => '{' :: (stringChars k ++ ':' :: chars v ++ memberChars ms)

/-- The items after the first, and the end of the array. -/
def itemChars : List Json → List Char
  | [] => [']']
  | v :: vs => ',' :: (chars v ++ itemChars vs)

/-- The members after the first, and the end of the object. -/
def memberChars : List (String × Json) → List Char
  | [] => ['}']
  | (k, v) :: ms => ',' :: (stringChars k ++ ':' :: chars v ++ memberChars ms)

end

def text (v : Json) : String :=
  String.ofList v.chars

mutual

/-- How many objects lie within each other. -/
def rank : Json → Nat
  | array items => rankItems items
  | object members => rankMembers members + 1
  | _ => 0

def rankItems : List Json → Nat
  | [] => 0
  | v :: vs => max (rank v) (rankItems vs)

def rankMembers : List (String × Json) → Nat
  | [] => 0
  | (_, v) :: ms => max (rank v) (rankMembers ms)

end

mutual

/-- How a message shows a value. -/
def debugText : Json → String
  | null => "Null"
  | bool b => "Bool(" ++ (if b then "true" else "false") ++ ")"
  | number t => "Number(" ++ t ++ ")"
  | string s => "String(" ++ Text.quote s ++ ")"
  | array items => "Array [" ++ ", ".intercalate (debugItems items) ++ "]"
  | object members => "Object \x7b" ++ ", ".intercalate (debugMembers members) ++ "\x7d"

def debugItems : List Json → List String
  | [] => []
  | v :: vs => debugText v :: debugItems vs

def debugMembers : List (String × Json) → List String
  | [] => []
  | (k, v) :: ms => (Text.quote k ++ ": " ++ debugText v) :: debugMembers ms

end

end Json

end Marshal
