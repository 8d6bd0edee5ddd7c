import Marshal.Kind
import Marshal.Members

/-!
Stores of property values that remember what has changed. A key that was never set is absent, and a
key set to nothing holds an explicit null. Values may be stores themselves; those set as `model` or
`models` take part in what happens to the store that holds them.
-/

namespace Marshal

/-- What an entry of a store holds, where `M` are the models among the values. -/
inductive Held (M : Type)
  | null
  | scalar (k : Kind) (v : k.Carrier)
  | strings (l : List String)
  /-- A model that is a value like any other. -/
  | plain (m : M)
  | model (m : M)
  | models (ms : List M)

structure Entry (M : Type) where
  key : String
  dirty : Bool
  held : Held M

/-- A store: whether its initial values are complete, whether it returns only changed values, and
its entries in the order in which their keys came. -/
inductive Store
  | mk (initialized onlyChanged : Bool) (entries : List (Entry Store))

namespace Held

variable {M : Type}

def isNull : Held M → Bool
  | null => true
  | _ => false

/-- The scalar of kind `k`, if it is one. -/
def scalar? (k : Kind) : Held M → Option k.Carrier
  | scalar l v => if h : l = k then some (h ▸ v) else none
  | _ => none

def strings? : Held M → Option (List String)
  | strings l => some l
  | _ => none

def model? : Held M → Option M
  | plain m | model m => some m
  | _ => none

def models? : Held M → Option (List M)
  | models ms => some ms
  | _ => none

/-- Changes a scalar of kind `k`. -/
def mapScalar? (k : Kind) (f : k.Carrier → k.Carrier) (h : Held M) : Option (Held M) :=
  (h.scalar? k).map fun v => .scalar k (f v)

def mapStrings? (f : List String → List String) (h : Held M) : Option (Held M) :=
  h.strings?.map fun l => .strings (f l)

/-- Changes a model and leaves it linked as it was. -/
def mapModel? (f : M → M) : Held M → Option (Held M)
  | plain m => some (.plain (f m))
  | model m => some (.model (f m))
  | _ => none

def mapModels? (f : List M → List M) (h : Held M) : Option (Held M) :=
  h.models?.map fun ms => .models (f ms)

/-- A scalar, or an explicit null. -/
def ofScalar? (k : Kind) : Option k.Carrier → Held M
  | some v => scalar k v
  | none => null

/-- A linked model, or an explicit null. -/
def ofModel? : Option M → Held M
  | some m => model m
  | none => null

/-- Linked models, or an explicit null. -/
def ofModels? : Option (List M) → Held M
  | some ms => models ms
  | none => null

end Held

namespace Store

/-- A new store is complete, so that every value set from then on is a change. -/
def empty : Store := ⟨true, false, []⟩

instance : Inhabited Store := ⟨empty⟩

def initialized : Store → Bool
  | ⟨i, _, _⟩ => i

def onlyChanged : Store → Bool
  | ⟨_, o, _⟩ => o

def entries : Store → List (Entry Store)
  | ⟨_, _, es⟩ => es

def withEntries : Store → List (Entry Store) → Store
  | ⟨i, o, _⟩, es => ⟨i, o, es⟩

/-- Decides whether only changed values are returned. Nested stores decide for themselves. -/
def setOnlyChanged (b : Bool) : Store → Store
  | ⟨i, _, es⟩ => ⟨i, b, es⟩

mutual

/-- Whether some entry has changed. -/
def touched : Store → Bool
  | ⟨_, _, es⟩ => touchedEntries es

def touchedEntries : List (Entry Store) → Bool
  | [] => false
  | ⟨_, dirty, held⟩ :: es => dirty || touchedHeld held || touchedEntries es

/-- Whether something has changed in a linked model. -/
def touchedHeld : Held Store → Bool
  | .model m => m.touched
  | .models ms => touchedModels ms
  | _ => false

def touchedModels : List Store → Bool
  | [] => false
  | m :: ms => m.touched || touchedModels ms

end

/-- Marked itself, or holding a linked model with changes. -/
def changed (e : Entry Store) : Bool :=
  e.dirty || touchedHeld e.held

mutual

/-- Marks every entry of a store and of the stores linked below it; says to all of them that they
are complete or not, if there is something to say. -/
def mark (initialized : Option Bool) (dirty : Bool) : Store → Store
  | ⟨i, o, es⟩ => ⟨initialized.getD i, o, markEntries initialized dirty es⟩

def markEntries (initialized : Option Bool) (dirty : Bool) :
    List (Entry Store) → List (Entry Store)
  | [] => []
  | ⟨key, _, held⟩ :: es =>
    ⟨key, dirty, markHeld initialized dirty held⟩ :: markEntries initialized dirty es

def markHeld (initialized : Option Bool) (dirty : Bool) : Held Store → Held Store
  | .model m => .model (m.mark initialized dirty)
  | .models ms => .models (markModels initialized dirty ms)
  | held => held

def markModels (initialized : Option Bool) (dirty : Bool) : List Store → List Store
  | [] => []
  | m :: ms => m.mark initialized dirty :: markModels initialized dirty ms

end

/-- Marks everything as changed, so that all of it is sent again. -/
def makeSendable (s : Store) : Store :=
  s.mark none true

/-- Completeness makes every entry clean, and incompleteness makes every entry dirty. -/
def setInitialized (b : Bool) (s : Store) : Store :=
  s.mark (some b) !b

def find? (s : Store) (key : String) : Option (Entry Store) :=
  s.entries.find? (·.key == key)

def contains (s : Store) (key : String) : Bool :=
  (s.find? key).isSome

def isNull (s : Store) (key : String) : Bool :=
  (s.find? key).any (·.held.isNull)

def isDirty (s : Store) (key : String) : Bool :=
  (s.find? key).any changed

def length (s : Store) : Nat :=
  s.entries.length

/-- Whether a read may see an entry. -/
def visible (s : Store) (e : Entry Store) : Bool :=
  !s.onlyChanged || changed e

def get? (s : Store) (key : String) : Option (Held Store) :=
  ((s.find? key).filter s.visible).map (·.held)

/-- The keys that a read may see. -/
def keys (s : Store) : List String :=
  (s.entries.filter s.visible).map (·.key)

def allKeys (s : Store) : List String :=
  s.entries.map (·.key)

def dirtyKeys (s : Store) : List String :=
  (s.entries.filter changed).map (·.key)

/-- The keys that have been set to null. -/
def nulledKeys (s : Store) : List String :=
  (s.entries.filter fun e => e.dirty && e.held.isNull).map (·.key)

/-- Replaces the first entry of that key where it stands, or comes last. -/
def putEntry (e : Entry Store) : List (Entry Store) → List (Entry Store)
  | [] => [e]
  | x :: xs => if x.key = e.key then e :: xs else x :: putEntry e xs

/-- Sets a value; it is a change once the store is complete. -/
def set (s : Store) (key : String) (held : Held Store) : Store :=
  s.withEntries (putEntry ⟨key, s.initialized, held⟩ s.entries)

def remove (s : Store) (key : String) : Store :=
  s.withEntries (s.entries.filter (·.key != key))

def clear (s : Store) : Store :=
  s.withEntries []

/-- Changes the value of a key in place with `f`, where that knows what to do with it. Once the
store is complete the entry is marked. -/
def updateEntries? (key : String) (initialized : Bool) (f : Held Store → Option (Held Store)) :
    List (Entry Store) → Option (List (Entry Store))
  | [] => none
  | e :: es =>
    if e.key = key then
      (f e.held).map fun held => { e with held, dirty := initialized || e.dirty } :: es
    else (updateEntries? key initialized f es).map (e :: ·)

def update? (s : Store) (key : String) (f : Held Store → Option (Held Store)) : Option Store :=
  (updateEntries? key s.initialized f s.entries).map s.withEntries

/-- Puts something else in the place of a value and leaves the marks as they are. -/
def restoreEntries (key : String) (f : Held Store → Held Store) :
    List (Entry Store) → List (Entry Store)
  | [] => []
  | e :: es =>
    if e.key = key then { e with held := f e.held } :: es else e :: restoreEntries key f es

def restore (key : String) (f : Held Store → Held Store) (s : Store) : Store :=
  s.withEntries (restoreEntries key f s.entries)

/-- How a message shows a store. -/
def debugText (s : Store) : String :=
  "BackingStore \x7b keys: " ++ Text.quoteList s.allKeys ++ ", dirty: " ++
    Text.quoteList s.dirtyKeys ++ ", initialization_completed: " ++
    (if s.initialized then "true" else "false") ++ ", return_only_changed_values: " ++
    (if s.onlyChanged then "true" else "false") ++ " \x7d"

end Store

end Marshal
