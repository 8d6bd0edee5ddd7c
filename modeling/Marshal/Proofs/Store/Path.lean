import Marshal.Proofs.Store.Lookup
import Marshal.Proofs.Store.Tree

/-!
Places in a tree of stores, and what is to be found there after one of the operations that reach
below a store.
-/

namespace Marshal

namespace Held

variable {M N : Type}

def map (f : M → N) : Held M → Held N
  | null => null
  | scalar k v => scalar k v
  | strings l => strings l
  | plain m => plain (f m)
  | model m => model (f m)
  | models ms => models (ms.map f)

def child? : Option Nat → Held M → Option M
  | none, plain m | none, model m => some m
  | some i, models ms => ms[i]?
  | _, _ => none

def linkedChild? : Option Nat → Held M → Option M
  | none, model m => some m
  | some i, models ms => ms[i]?
  | _, _ => none

/-- Changes the child of that place. A list may have none there, and then stays as it is. -/
def mapChild? (i : Option Nat) (f : M → M) (h : Held M) : Option (Held M) :=
  match i with
  | none => h.mapModel? f
  | some i => h.mapModels? (·.modify i f)

theorem child?_map (f : M → N) (h : Held M) (i : Option Nat) :
    (h.map f).child? i = (h.child? i).map f := by
  cases h <;> cases i <;> simp [map, child?]

theorem mem_nested_of_child? {h : Held M} {i : Option Nat} {m : M} (hm : h.child? i = some m) :
    m ∈ h.nested := by
  cases h with
  | models ms =>
      cases i with
      | none => cases hm
      | some i => exact List.mem_of_getElem? hm
  | _ => cases i <;> simp_all [child?, nested]

theorem child?_of_mapChild? {i : Option Nat} {f : M → M} {h h' : Held M}
    (hf : h.mapChild? i f = some h') (j : Option Nat) :
    h'.child? j = if j = i then (h.child? j).map f else h.child? j := by
  cases i with
  | none => cases h <;> cases hf <;> cases j <;> rfl
  | some i =>
      cases h with
      | models ms =>
          cases hf
          cases j with
          | none => rfl
          | some j =>
              by_cases hij : i = j
              · simp [child?, hij]
              · simp [child?, hij, Ne.symm hij]
      | _ => cases hf

theorem child?_of_mapChild?_none {i : Option Nat} {f : M → M} {h : Held M}
    (hf : h.mapChild? i f = none) : h.child? i = none := by
  cases i <;> cases h <;> simp_all [mapChild?, mapModel?, mapModels?, models?, child?]

theorem linkedChild?_eq_some {h : Held M} {i : Option Nat} {m : M}
    (hm : h.linkedChild? i = some m) : h.child? i = some m := by
  cases h <;> cases i <;> simp_all [linkedChild?, child?]

theorem child?_markHeld (initialized : Option Bool) (dirty : Bool) (h : Held Store)
    (i : Option Nat) :
    (Store.markHeld initialized dirty h).child? i =
      if (h.linkedChild? i).isSome then (h.child? i).map (Store.mark initialized dirty)
      else h.child? i := by
  cases h with
  | models ms =>
      cases i with
      | none => rfl
      | some i => cases hi : ms[i]? <;>
          simp [Store.markHeld, Store.markModels_eq, child?, linkedChild?, hi]
  | _ => cases i <;> rfl

end Held

namespace Store

/-- One step down: the key, and the place in the list if the key holds a list of models. -/
abbrev Hop := String × Option Nat

abbrev Path := List Hop

def child? (s : Store) (hop : Hop) : Option Store :=
  (s.find? hop.1).bind (·.held.child? hop.2)

def below? : Path → Store → Option Store
  | [], s => some s
  | hop :: path, s => (s.child? hop).bind (below? path)

/-- Whether a path leads over linked models only. -/
def linksTo : Path → Store → Bool
  | [], _ => true
  | hop :: path, s => ((s.find? hop.1).bind (·.held.linkedChild? hop.2)).any (linksTo path)

def setOnlyChangedBelow (b : Bool) : Path → Store → Store
  | [], s => s.setOnlyChanged b
  | (key, i) :: path, s =>
    s.restore key fun h => (h.mapChild? i (setOnlyChangedBelow b path)).getD h

theorem child?_congr {s t : Store} {hop : Hop} (h : s.find? hop.1 = t.find? hop.1) :
    s.child? hop = t.child? hop := by
  rw [child?, child?, h]

/-- A mark reaches as far as the links do. -/
theorem below?_mark (initialized : Option Bool) (dirty : Bool) (path : Path) (s : Store) :
    below? path (s.mark initialized dirty) =
      (below? path s).map fun m =>
        bif linksTo path s then m.mark initialized dirty else m := by
  induction path generalizing s with
  | nil => rfl
  | cons hop path ih =>
      simp only [below?, child?, linksTo, find?_mark]
      cases hf : s.find? hop.1 with
      | none => rfl
      | some e =>
          -- Over a hop that is no link, the mark stays behind and the way down is as it was.
          simp only [Option.map_some, Option.bind_some, Held.child?_markHeld]
          cases hl : e.held.linkedChild? hop.2 with
          | none => simp
          | some m =>
              rw [Held.linkedChild?_eq_some hl]
              exact ih m

end Store

end Marshal
