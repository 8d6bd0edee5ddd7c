import Marshal.Draft.Call

/-!
A payload of plain text in the making: one unnamed scalar.
-/

namespace Marshal

/-- The text of a scalar on one line; what has a structure has none. -/
def Call.lineText? : Call → Option (Option String)
  | string _ v => some v
  | bool _ v => some (v.map boolText)
  | integer _ v => some (v.map fun n => intText n.toInt)
  | single _ v => some (v.map fun x => x.text .plain)
  | double _ v => some (v.map fun x => x.text .plain)
  | decimal _ v => some (v.map Decimal.text)
  | bytes _ v => some (v.map Base64.encode)
  | null _ => some (some "null")
  | startObject .. | endObject | startCollection _ | endCollection => none

/-- The key of a scalar. -/
def Call.key? : Call → Option String
  | string key _ | bool key _ | integer key _ | single key _ | double key _ | decimal key _
  | bytes key _ | null key | startObject key _ | startCollection key => key
  | endObject | endCollection => none

structure TextDraft where
  text : Option String := none
  deriving DecidableEq

namespace TextDraft

def put (key : Option String) (s : String) (d : TextDraft) : Result Unit × TextDraft :=
  if key.any (!·.isEmpty) then (.error (.unsupported .structuredText), d)
  else match d.text with
    | some _ => (.error (.unsupported .secondText), d)
    | none => (.ok (), { d with text := some s })

def call (c : Call) (d : TextDraft) : Result Unit × TextDraft :=
  match c.lineText? with
  | some (some s) => d.put c.key? s
  | some none => (.ok (), d)
  | none => (.error (.unsupported .structuredText), d)

def finish (d : TextDraft) : Result Bytes × TextDraft :=
  (.ok (match d.text with
    | some s => Bytes.ofString s
    | none => []), { d with text := none })

instance : Draft TextDraft where
  call := call
  shadows _ _ := false
  finish := finish

end TextDraft

end Marshal
