import Marshal.Draft.Call

/-!
A list of the calls that were made, a line each: what was written, under which key, and its text.
Singles are shown as doubles, and decimals and bytes as strings. A hyphen stands for what is
missing.
-/

namespace Marshal

structure Transcript where
  contentType : String
  lines : List String := []
  deriving DecidableEq

namespace Transcript

def line (what : String) (key value : Option String) : String :=
  what ++ " " ++ key.getD "-" ++ " " ++ value.getD "-"

/-- The bits of a double in hexadecimal digits. -/
def doubleText (x : Double) : String :=
  if x.reading = .nan then "nan" else String.ofList (Guid.hexRow 16 x.bits.toNat)

def lineOf : Call → String
  | .string key v => line "string" key v
  | .bool key v => line "bool" key (v.map boolText)
  | .integer key v => line "long" key (v.map fun n => intText n.toInt)
  | .single key v => line "double" key (v.map fun x => doubleText (.ofSingle x))
  | .double key v => line "double" key (v.map doubleText)
  | .decimal key v => line "string" key (v.map Decimal.text)
  | .bytes key v => line "string" key (v.map Base64.encode)
  | .null key => line "null" key none
  | .startObject key subject =>
    line "start_object" key (if subject = .untyped then none else some "model")
  | .endObject => line "end_object" none none
  | .startCollection key => line "start_collection" key none
  | .endCollection => line "end_collection" none none

instance : Draft Transcript where
  call c t := (.ok (), { t with lines := t.lines ++ [lineOf c] })
  shadows _ _ := false
  finish t := (.ok (Bytes.ofString ("\n".intercalate t.lines)), { t with lines := [] })

end Transcript

end Marshal
