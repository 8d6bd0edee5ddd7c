import Mathlib.Data.List.Basic
import Marshal.Store.Basic

/-!
Stores as trees. A store holds other stores as values of its entries; some of them are linked to it,
others are values like any other. One induction principle serves all facts about such trees.
-/

namespace Marshal

namespace Held

variable {M : Type}

def nested : Held M → List M
  | plain m | model m => [m]
  | models ms => ms
  | _ => []

/-- The models that take part in what happens to the store. -/
def linked : Held M → List M
  | model m => [m]
  | models ms => ms
  | _ => []

theorem linked_subset_nested (h : Held M) : h.linked ⊆ h.nested := by
  cases h <;> simp [linked, nested]

end Held

namespace Store

/-- Induction over the tree: a fact passes from all nested stores to the store that holds them. -/
theorem induct {P : Store → Prop}
    (step : ∀ s : Store, (∀ e ∈ s.entries, ∀ m ∈ e.held.nested, P m) → P s) (s : Store) : P s := by
  -- The recursor asks for a motive at each type of the nest, and each is `P` for all models in it.
  refine @Store.rec P (fun es => ∀ e ∈ es, ∀ m ∈ e.held.nested, P m)
    (fun e => ∀ m ∈ e.held.nested, P m) (fun h => ∀ m ∈ h.nested, P m) (fun ms => ∀ m ∈ ms, P m)
    (fun i o es hes => step ⟨i, o, es⟩ hes) (by simp) ?entries (fun _ _ _ h => h)
    (by simp [Held.nested]) (by simp [Held.nested]) (by simp [Held.nested]) ?plain ?model
    (fun _ h => h) (by simp) ?models s
  case entries =>
    intro e es he hes
    exact List.forall_mem_cons.mpr ⟨he, hes⟩
  case plain =>
    intro m hm
    simpa [Held.nested] using hm
  case model =>
    intro m hm
    simpa [Held.nested] using hm
  case models =>
    intro m ms hm hms
    exact List.forall_mem_cons.mpr ⟨hm, hms⟩

inductive Within : Store → Store → Prop
  | here (s : Store) : Within s s
  | inside {s m t : Store} {e : Entry Store} (he : e ∈ s.entries) (hm : m ∈ e.held.nested)
      (ht : Within m t) : Within s t

theorem Within.trans {s t u : Store} (hst : Within s t) (htu : Within t u) : Within s u := by
  induction hst with
  | here => exact htu
  | inside he hm _ ih => exact .inside he hm (ih htu)

/-- `t` is `s` or is reached from it over linked models only. -/
inductive Reaches : Store → Store → Prop
  | here (s : Store) : Reaches s s
  | inside {s m t : Store} {e : Entry Store} (he : e ∈ s.entries) (hm : m ∈ e.held.linked)
      (ht : Reaches m t) : Reaches s t

theorem Reaches.within {s t : Store} (h : Reaches s t) : Within s t := by
  induction h with
  | here s => exact .here s
  | inside he hm _ ih => exact .inside he (Held.linked_subset_nested _ hm) ih

def Everywhere (P : Store → Prop) (s : Store) : Prop :=
  ∀ t, Within s t → P t

theorem everywhere_iff {P : Store → Prop} {s : Store} :
    Everywhere P s ↔ P s ∧ ∀ e ∈ s.entries, ∀ m ∈ e.held.nested, Everywhere P m := by
  constructor
  · intro h
    exact ⟨h s (.here s), fun e he m hm t ht => h t (.inside he hm ht)⟩
  · rintro ⟨hs, hbelow⟩ t ht
    cases ht with
    | here => exact hs
    | inside he hm ht => exact hbelow _ he _ hm t ht

@[simp] theorem everywhere_mk {P : Store → Prop} {i o : Bool} {es : List (Entry Store)} :
    Everywhere P ⟨i, o, es⟩ ↔ P ⟨i, o, es⟩ ∧ ∀ e ∈ es, ∀ m ∈ e.held.nested, Everywhere P m :=
  everywhere_iff

theorem Everywhere.root {P : Store → Prop} {s : Store} (h : Everywhere P s) : P s :=
  h s (.here s)

theorem Everywhere.nested {P : Store → Prop} {s : Store} (h : Everywhere P s) {e : Entry Store}
    (he : e ∈ s.entries) {m : Store} (hm : m ∈ e.held.nested) : Everywhere P m :=
  (everywhere_iff.mp h).2 e he m hm

end Store

end Marshal
