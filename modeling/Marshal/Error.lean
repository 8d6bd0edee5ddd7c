import Marshal.Number.Digits
import Marshal.Text.Quoted

/-!
What can go wrong when a payload is read or written, by cause. The wording is in `Error.message`.
-/

namespace Marshal

/-- What a typed read asked for. -/
inductive Wanted
  | boolean
  | unsignedByte
  | signedByte
  | integer32
  | integer64
  | number
  | decimal
  | guid
  | dateTime
  | date
  | time
  | timeSpan
  | bytes
  | string
  | array
  | object
  | value
  deriving DecidableEq

def Wanted.phrase : Wanted → String
  | boolean => "a boolean"
  | unsignedByte => "an unsigned byte"
  | signedByte => "a signed byte"
  | integer32 => "a 32-bit integer"
  | integer64 => "a 64-bit integer"
  | number => "a number"
  | decimal => "a decimal"
  | guid => "a GUID"
  | dateTime => "an RFC 3339 date-time"
  | date => "a YYYY-MM-DD date"
  | time => "an HH:MM:SS time"
  | timeSpan => "an ISO 8601 duration"
  | bytes => "base64 content"
  | string => "a string"
  | array => "an array"
  | object => "an object"
  | value => "a value"

/-- What a typed read met instead. -/
inductive Found
  | text (s : String)
  | null
  | boolean
  | number
  | string
  | array
  | object
  | form
  deriving DecidableEq

def Found.phrase : Found → String
  | text s => "`" ++ s ++ "`"
  | null => "null"
  | boolean => "a boolean"
  | number => "a number"
  | string => "a string"
  | array => "an array"
  | object => "an object"
  | form => "the form itself"

/-- Why a payload, or a place in it, cannot be read. -/
inductive ParseFault
  | expected (wanted : Wanted) (found : Found)
  | tooDeep (limit : Nat)
  | invalidJson
  | notUtf8
  /-- No factory stands for the discriminator value of a base type. -/
  | noFactory (value : Option String) (baseType : String)
  /-- A factory or a field reader gave up. -/
  | refused (reason : String)
  deriving DecidableEq

def ParseFault.message : ParseFault → String
  | expected wanted found => "expected " ++ wanted.phrase ++ ", found " ++ found.phrase
  | tooDeep limit => "nesting exceeds the maximum depth of " ++ natText limit
  | invalidJson => "invalid JSON"
  | notUtf8 => "payload is not UTF-8"
  | noFactory value baseType =>
    "no factory for discriminator " ++ value.getD "<missing>" ++ " of " ++ baseType
  | refused reason => reason

/-- An argument that a caller may not give. -/
inductive BadArgument
  | emptyContentType
  | emptyContent
  | blankPartName
  | blankPartType
  | noParts
  deriving DecidableEq

def BadArgument.name : BadArgument → String
  | emptyContentType | blankPartType => "content_type"
  | emptyContent => "content"
  | blankPartName => "name"
  | noParts => "parts"

def BadArgument.reason : BadArgument → String
  | emptyContentType | emptyContent => "must not be empty"
  | blankPartName => "part name must not be empty"
  | blankPartType => "part content type must not be empty"
  | noParts => "multipart body must contain at least one part"

inductive Container
  | object
  | collection
  deriving DecidableEq

def Container.noun : Container → String
  | object => "object"
  | collection => "collection"

/-- What a multipart body has no place for. -/
inductive NotMultipart
  | booleans
  | numbers
  | nulls
  | objects
  | collections
  deriving DecidableEq

def NotMultipart.phrase : NotMultipart → String
  | booleans => "boolean values"
  | numbers => "numeric values"
  | nulls => "null values"
  | objects => "objects other than the multipart body itself"
  | collections => "collections"

/-- What a format cannot do. -/
inductive Unsupported
  | structuredText
  | secondText
  | unnamedMember
  | secondRoot
  /-- An end without a start; `innermost` shows what was open instead. -/
  | unmatchedEnd (what : Container) (innermost : String)
  | endOutsideForm
  | nestedFormObject
  | rootFormCollection
  | nestedFormCollection
  | namedInFormCollection (collection : String)
  | unnamedFormValue
  | outsideForm (key : String)
  | formAsCollection
  | formFieldAsObject (path : String)
  | inMultipart (what : NotMultipart)
  deriving DecidableEq

def Unsupported.message : Unsupported → String
  | structuredText => "text/plain does not support structured data"
  | secondText => "text/plain holds a single value"
  | unnamedMember => "JSON object member without a name"
  | secondRoot => "a JSON document holds a single root value"
  | unmatchedEnd what innermost =>
    "end of " ++ what.noun ++ " without a matching start (" ++ innermost ++ ")"
  | endOutsideForm => "end of object without a matching start"
  | nestedFormObject => "form serialization does not support nested objects"
  | rootFormCollection => "form serialization does not support root collections"
  | nestedFormCollection => "form serialization does not support nested collections"
  | namedInFormCollection collection =>
    "form collection `" ++ collection ++ "` cannot hold named values"
  | unnamedFormValue => "form values must be fields of the root object"
  | outsideForm key => "form field `" ++ key ++ "` written outside of an object"
  | formAsCollection => "a form cannot be read as a collection"
  | formFieldAsObject path => "form field `" ++ path ++ "` cannot hold a nested object"
  | inMultipart what => "multipart bodies cannot contain " ++ what.phrase

/-- What has no text in a format. -/
inductive Unformattable
  | openContainers (n : Nat)
  /-- A moment, and the part of it that does not fit the format. -/
  | dateTime (moment component : String)
  | notUtf8
  deriving DecidableEq

def Unformattable.message : Unformattable → String
  | openContainers n => natText n ++ " unterminated JSON container(s)"
  | dateTime moment component =>
    "date-time " ++ moment ++ ": The " ++ component ++
      " component cannot be formatted into the requested format."
  | notUtf8 => "payload is not UTF-8"

inductive Error
  | invalidArgument (cause : BadArgument)
  | unsupportedContentType (contentType : String)
  | parse (path : String) (cause : ParseFault)
  | unsupported (cause : Unsupported)
  | format (cause : Unformattable)
  deriving DecidableEq

def Error.message : Error → String
  | invalidArgument cause => "invalid argument `" ++ cause.name ++ "`: " ++ cause.reason
  | unsupportedContentType contentType => "unsupported content type `" ++ contentType ++ "`"
  | parse path cause =>
    "parse error at `" ++ (if path.isEmpty then "/" else path) ++ "`: " ++ cause.message
  | unsupported cause => "unsupported operation: " ++ cause.message
  | format cause => "value cannot be formatted: " ++ cause.message

abbrev Result := Except Error

end Marshal
