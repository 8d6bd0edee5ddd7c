import Marshal.WireEnum

/-!
What state somebody is in.
-/

namespace Marshal

inductive Status
  | active
  | suspended
  | pendingReview
  deriving DecidableEq

namespace Status

def name : Status → String
  | active => "Active"
  | suspended => "Suspended"
  | pendingReview => "PendingReview"

def wire : WireEnum Status where
  members := [
    { value := active, name := active.name },
    { value := suspended, name := suspended.name },
    { value := pendingReview, name := pendingReview.name, wireName := some "pending-review" }]

end Status

end Marshal
