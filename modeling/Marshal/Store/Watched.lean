import Marshal.Guid
import Marshal.Store.Basic

/-!
A store with subscribers. A value that is set and a value that is removed are told to every
subscriber, in the order in which their ids came; nothing else is told.
-/

namespace Marshal

/-- A store, and what each subscriber is known by to the caller. -/
structure Watched (L : Type) where
  store : Store := .empty
  subscribers : Members L := []

namespace Watched

variable {L : Type}

/-- A key that has changed, for every subscriber. -/
def told (w : Watched L) (key : String) : List (L × String) :=
  w.subscribers.map fun p => (p.2, key)

/-- Changes the store in a way that nobody is told of. -/
def quietly (w : Watched L) (f : Store → Store) : Watched L :=
  { w with store := f w.store }

def set (w : Watched L) (key : String) (held : Held Store) : Watched L × List (L × String) :=
  (w.quietly (·.set key held), w.told key)

/-- Removes a key; one that is not there is not told. -/
def remove (w : Watched L) (key : String) : Watched L × List (L × String) :=
  (w.quietly (·.remove key), if w.store.contains key then w.told key else [])

/-- Subscribes under `id`. One who is there already under that id gives up the place. -/
def subscribe (w : Watched L) (id : String) (subscriber : L) : Watched L :=
  { w with subscribers := w.subscribers.put id subscriber }

/-- Subscribes under an id made from a seed. -/
def subscribeFresh (w : Watched L) (seed : BitVec 122) (subscriber : L) : String × Watched L :=
  let id := (Guid.ofSeed seed).text
  (id, w.subscribe id subscriber)

def isSubscribed (w : Watched L) (id : String) : Bool :=
  w.subscribers.has id

def unsubscribe (w : Watched L) (id : String) : Watched L :=
  { w with subscribers := w.subscribers.erase id }

end Watched

end Marshal
