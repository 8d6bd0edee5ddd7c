import Marshal.Draft.Call

/-!
A multipart payload in the making. The body lays it out: a string is a line, with its key and a
colon in front if it has one, and bytes are taken as they are.
-/

namespace Marshal

structure MultipartDraft where
  bytes : Bytes := []
  /-- How many bodies have been started and not ended. -/
  depth : Nat := 0
  deriving DecidableEq

namespace MultipartDraft

def lineEnd : Bytes := [13, 10]

def append (b : Bytes) (d : MultipartDraft) : MultipartDraft :=
  { d with bytes := d.bytes ++ b }

/-- A line of a key, a value, or both. -/
def lineText : Option String → Option String → Option String
  | none, none => none
  | some k, none => some k
  | none, some v => some v
  | some k, some v => some (k ++ ": " ++ v)

def fail (what : NotMultipart) (d : MultipartDraft) : Result Unit × MultipartDraft :=
  (.error (.unsupported (.inMultipart what)), d)

def putLine (key v : Option String) (d : MultipartDraft) : Result Unit × MultipartDraft :=
  match lineText key v with
  | some s => (.ok (), d.append (Bytes.ofString s ++ lineEnd))
  | none => (.ok (), d)

def call (c : Call) (d : MultipartDraft) : Result Unit × MultipartDraft :=
  match c with
  | .string key v => d.putLine key v
  | .decimal key v => d.putLine key (v.map Decimal.text)
  | .bytes _ v => (.ok (), d.append (v.getD []))
  | .bool .. => d.fail .booleans
  | .integer .. | .single .. | .double .. => d.fail .numbers
  | .null _ => d.fail .nulls
  | .startObject _ subject =>
    if d.depth = 0 ∧ subject = .multipartBody then (.ok (), { d with depth := d.depth + 1 })
    else d.fail .objects
  | .endObject => (.ok (), { d with depth := d.depth - 1 })
  | .startCollection _ | .endCollection => d.fail .collections

def finish (d : MultipartDraft) : Result Bytes × MultipartDraft :=
  (.ok d.bytes, { d with bytes := [] })

instance : Draft MultipartDraft where
  call := call
  shadows _ _ := false
  finish := finish

end MultipartDraft

end Marshal
