import Marshal.WireEnum

/-!
What somebody may do: a flag enumeration.
-/

namespace Marshal

/-- A set of bits. -/
structure Permissions where
  bits : UInt64
  deriving DecidableEq

namespace Permissions

def wire : WireEnum Permissions where
  members := [
    { value := ⟨0⟩, name := "none" },
    { value := ⟨1⟩, name := "read" },
    { value := ⟨2⟩, name := "write" },
    { value := ⟨4⟩, name := "Share", wireName := some "share-link" },
    { value := ⟨8⟩, name := "admin" }]
  flags := some { toBits := bits, ofBits := mk }

end Permissions

end Marshal
