import Marshal.Models.Status
import Marshal.Parsable
import Marshal.Writing

/-!
A contact: a flat model that keeps no undeclared fields.
-/

namespace Marshal

structure Contact where
  name : Option String := none
  age : Option Int32 := none
  subscribed : Option Bool := none
  topics : Option (List String) := none
  status : Option Status := none
  deriving DecidableEq

namespace Contact

def fields : List (Field Contact) := [
  ⟨"name", Kind.string.codec, name, fun v c => { c with name := v }⟩,
  ⟨"age", Kind.int.codec, age, fun v c => { c with age := v }⟩,
  ⟨"subscribed", Kind.bool.codec, subscribed, fun v c => { c with subscribed := v }⟩,
  ⟨"topics", Kind.string.listCodec, topics, fun v c => { c with topics := v }⟩,
  ⟨"status", Status.wire.codec, status, fun v c => { c with status := v }⟩]

instance : Parsable Contact where
  create _ := .ok {}
  fieldReaders _ _ := Field.readers fields
  glance _ := {}

def write (c : Contact) (key : Option String) : Writing Unit Unit :=
  .plainObject key none (.script (Field.scripts fields c))

instance : Writable Contact where
  outgoing c := .ofUnmarked c c.write

end Contact

end Marshal
