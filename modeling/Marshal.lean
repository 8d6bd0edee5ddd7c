import Marshal.Json.Access
import Marshal.Models.AnyModel
import Marshal.Models.Profile.Edit
import Marshal.Serializer
import Marshal.Store.Watched
import Marshal.Proofs.Contact.Spelling
import Marshal.Proofs.Registry.History
import Marshal.Proofs.Employee.RoundTrip
import Marshal.Proofs.Profile.Echo
import Marshal.Proofs.Profile.Patch
import Marshal.Proofs.Profile.Refusal
import Marshal.Proofs.Store.History
import Marshal.Proofs.Bytes.Utf8
import Marshal.Proofs.Form.Encoding
import Marshal.Proofs.Form.Groups
import Marshal.Proofs.Form.Codec
import Marshal.Proofs.Form.Field
import Marshal.Proofs.Contact.RoundTrip
import Marshal.Proofs.Form.Additional
import Marshal.Proofs.Employee.Form
import Marshal.Proofs.Trace.Block
import Marshal.Proofs.Trace.Writing
import Marshal.Proofs.Trace.Reading
import Marshal.Proofs.Employee.Trace
import Marshal.Proofs.Profile.Trace
import Marshal.Proofs.Trace.Nesting
import Marshal.Proofs.Employee.Slots
import Marshal.Proofs.Employee.Faults
import Marshal.Proofs.Json.Twins
import Marshal.Proofs.Reading.Reordered
import Marshal.Proofs.Employee.Reordered
import Marshal.Proofs.Directory.Reordered
import Marshal.Proofs.Json.Scanning
import Marshal.Proofs.Json.Text
import Marshal.Proofs.Json.Numbers
import Marshal.Proofs.Json.Faithful
import Marshal.Proofs.Directory.Writing
import Marshal.Proofs.Directory.RoundTrip
import Marshal.Proofs.Number.Nearest
import Marshal.Proofs.Number.Shortest
import Marshal.Proofs.Number.Layout
import Marshal.Proofs.Json.Doubles
import Marshal.Proofs.Json.Undeclared
import Marshal.Proofs.Employee.Received
import Marshal.Proofs.Employee.Kept
import Marshal.Proofs.Employee.Written
import Marshal.Proofs.PlainText
import Marshal.Proofs.Writing.Log
import Marshal.Proofs.Multipart.Reader
import Marshal.Proofs.Multipart.Header
import Marshal.Proofs.Multipart.Payload
import Marshal.Proofs.Number.FewDigits
import Marshal.Proofs.Json.Resent
import Marshal.Proofs.Employee.Resent
import Marshal.Proofs.Discriminators
import Marshal.Proofs.Reading.Absent
import Marshal.Proofs.Calendar.Accepted
import Marshal.Proofs.WireEnum.Cover
import Marshal.Proofs.WireEnum.Names
import Marshal.Proofs.Writing.Tree
import Marshal.Proofs.Employee.Additional
import Marshal.Proofs.Profile.Assigned
import Marshal.Proofs.Employee.Depth
import Marshal.Proofs.Calendar.Moment
import Marshal.Proofs.Writing.Failure
import Marshal.Proofs.Form.Whole
import Marshal.Proofs.Discriminators.History
import Marshal.Proofs.Json.Pointer
import Marshal.Proofs.Reading.Spelled
import Marshal.Proofs.Store.Subscribers
import Marshal.Proofs.Multipart.Editing
import Marshal.Proofs.Form.Grouping
import Marshal.Proofs.FieldReaders
