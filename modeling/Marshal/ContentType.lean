import Marshal.Error
import Marshal.Text.Case
import Marshal.Text.Blank
import Marshal.Text.Split

/-!
Content types. Parameters and letter case do not count, and a type with a suffix, such as
`application/vnd.acme+json`, may be treated as what the suffix names.
-/

namespace Marshal.ContentType

/-- The type without its parameters, in lower case. -/
def mediaType (s : String) : String :=
  Text.asciiLower (String.ofList (Text.trimChars (Text.upTo ';' s.toList)))

/-- As `mediaType`, which may not be empty. -/
def normalize (s : String) : Result String :=
  if (mediaType s).isEmpty then .error (.invalidArgument .emptyContentType)
  else .ok (mediaType s)

/-- The type that the suffix names: the part after the last plus stands for all that follows the
first slash. -/
def vendorCleaned? (s : String) : Option String := do
  let (kind, subtype) ← Text.cut '/' s.toList
  let (_, suffix) ← Text.cutLast '+' subtype
  if suffix.isEmpty then none else some (String.ofList (kind ++ '/' :: suffix))

def json : String := "application/json"

def plainText : String := "text/plain"

def form : String := "application/x-www-form-urlencoded"

def multipart : String := "multipart/form-data"

end Marshal.ContentType
