import Marshal.Json.Value
import Marshal.Text.Split

/-!
JSON Pointers: paths into a document. A tilde in a segment is written `~0` and a slash `~1`, so a
path can be taken apart again.
-/

namespace Marshal.Json.Pointer

def escapeChar (c : Char) : List Char :=
  if c = '~' then ['~', '0'] else if c = '/' then ['~', '1'] else [c]

def segmentChars (segment : String) : List Char :=
  segment.toList.flatMap escapeChar

/-- A slash before every segment; the whole document has the empty path. -/
def chars (segments : List String) : List Char :=
  segments.flatMap fun s => '/' :: segmentChars s

def text (segments : List String) : String :=
  String.ofList (chars segments)

theorem slash_not_mem_escapeChar (c : Char) : '/' ∉ escapeChar c := by
  unfold escapeChar
  split
  · simp
  · split
    · simp
    · rename_i h
      simpa using fun e => h e.symm

theorem slash_not_mem_segmentChars (segment : String) : '/' ∉ segmentChars segment := by
  simp only [segmentChars, List.mem_flatMap, not_exists, not_and]
  exact fun c _ => slash_not_mem_escapeChar c

end Marshal.Json.Pointer
