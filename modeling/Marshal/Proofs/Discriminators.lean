import Marshal.Json.Access
import Marshal.Models.ModelType
import Marshal.Proofs.Json.Node

/-!
What a JSON object is taken to be. The discriminator is meant to be a string; but it is read as one,
and where a string is asked for a boolean or a number gives its text. So the two come apart exactly
for booleans and numbers, and the factories do where such a text has one of its own.
-/

namespace Marshal

/-- What a boolean or a number gives where a string is asked for. -/
def Json.rendered? : Json → Option String
  | bool b => some (boolText b)
  | number t => some t
  | _ => none

/-- A value that is read as a string is one, or is rendered as one; else it is null or refused. -/
theorem JsonNode.text?_cases (n : JsonNode) :
    (∃ s, n.text? = .ok (some s) ∧ (n.value.asString? <|> n.value.rendered?) = some s) ∨
      (n.text? = .ok none ∨ ∃ e, n.text? = .error e) ∧
        n.value.asString? = none ∧ n.value.rendered? = none := by
  cases hv : n.value with
  | string s => exact .inl ⟨s, by rw [text?, hv], rfl⟩
  | bool b => exact .inl ⟨boolText b, by rw [text?, hv], rfl⟩
  | number t => exact .inl ⟨t, by rw [text?, hv], rfl⟩
  | null => exact .inr ⟨.inl (by rw [text?, hv]), rfl, rfl⟩
  | array _ | object _ => exact .inr ⟨.inr ⟨_, by rw [text?, hv]; rfl⟩, rfl, rfl⟩

namespace Discriminators

variable {ι : Type} {M : ι → Type} (d : Discriminators M)

/-! ### The discriminator of an object -/

def named? (ms : Members Json) : Option String :=
  (ms.get? d.key).bind Json.asString?

def rendered? (ms : Members Json) : Option String :=
  (ms.get? d.key).bind Json.rendered?

variable {d} {n : JsonNode} {ms : Members Json}

theorem value?_object (hn : n.value = .object ms) (hroom : n.Room 1) :
    d.value? (.json n) = (d.named? ms <|> d.rendered? ms) := by
  rw [value?, Node.child?_object hn, named?, rendered?]
  cases ms.get? d.key with
  | none => rfl
  | some v =>
      have htext : Node.text? (.json (n.below d.key v)) = (n.below d.key v).text? := rfl
      dsimp only
      rw [JsonNode.child_eq hroom, Option.bind_some, Option.bind_some]
      simp only [Except.map, Function.comp_apply, htext]
      rcases (n.below d.key v).text?_cases with ⟨s, hs, hv⟩ | ⟨hnone | ⟨e, he⟩, hstring, hrendered⟩
      · rw [JsonNode.value_below] at hv
        rw [hs, hv]
      · rw [JsonNode.value_below] at hstring hrendered
        rw [hnone, hstring, hrendered]
        rfl
      · rw [JsonNode.value_below] at hstring hrendered
        rw [he, hstring, hrendered]
        rfl

/-- What is rendered is no string. -/
theorem named?_of_rendered? {text : String} (h : d.rendered? ms = some text) :
    d.named? ms = none := by
  rw [rendered?, Option.bind_eq_some_iff] at h
  obtain ⟨v, hv, htext⟩ := h
  rw [named?, hv, Option.bind_some]
  cases v with
  | bool | number => rfl
  | _ => cases htext

/-! ### The choice of a factory -/

section

variable [DecidableEq ι] (d) (b : ι)

def mapped? (value : String) : Option (Factory (M b)) :=
  (d.mapping? b).bind (·.get? value)

theorem match?_eq (n : Node) : d.match? b n = (d.value? n).bind (d.mapped? b) := by
  have hmapped : d.mapped? b = fun value => (d.mapping? b).bind (·.get? value) := rfl
  rw [match?, hmapped]
  cases d.mapping? b <;> cases d.value? n <;> rfl

theorem resolve_eq (n : Node) (f : Factory (M b)) :
    d.resolve b n f = ((d.value? n).bind (d.mapped? b)).getD f := by
  rw [resolve, match?_eq]

/-- The discriminator is the string that stands under its name, if and only if no boolean or number
stands there; and the factory is the one mapped to that string or else the fallback, if and only if
the text of such a boolean or number is not mapped to another. -/
theorem onlyStrings_iff (hn : n.value = .object ms) (hroom : n.Room 1) (f : Factory (M b)) :
    (d.value? (.json n) = d.named? ms ↔ d.rendered? ms = none) ∧
      (d.resolve b (.json n) f = ((d.named? ms).bind (d.mapped? b)).getD f ↔
        ((d.rendered? ms).bind (d.mapped? b)).getD f = f) := by
  rw [resolve_eq, value?_object hn hroom]
  cases hrendered : d.rendered? ms with
  | none => simp
  | some text =>
      rw [named?_of_rendered? hrendered]
      simp

end

end Discriminators

namespace ModelDiscriminators

open DirectoryObject in
/-- An object of the directory that says that it is a user, two steps from the last one that the
depth allows. -/
theorem onlyStrings_iff_user :
    let ms : Members Json := [("id", .number "5"), ("@odata.type", .string userType)]
    let n : JsonNode := { value := .object ms, steps := ["value"], maxDepth := 2 }
    n.Room 1 ∧ stock.value? (.json n) = some userType ∧
      stock.resolve .directoryObject (.json n) Parsable.create = createUser := by
  intro ms n
  have hroom : n.Room 1 := Nat.le_refl 2
  have hn : n.value = .object ms := rfl
  obtain ⟨hvalue, hresolve⟩ := Discriminators.onlyStrings_iff stock .directoryObject hn hroom
    Parsable.create
  exact ⟨hroom, hvalue.mpr rfl, hresolve.mpr rfl⟩

/-- A number picks the factory that is mapped to its text. -/
theorem resolve_number :
    let d : ModelDiscriminators :=
      Discriminators.insert {} .directoryObject "5" DirectoryObject.createUser
    let n : JsonNode := { value := .object [("@odata.type", .number "5")] }
    d.value? (.json n) = some "5" ∧
      d.resolve .directoryObject (.json n) Parsable.create (.json n) = .ok (.user {}) ∧
      (Parsable.create (.json n) : Result DirectoryObject) = .ok (.base {}) :=
  ⟨rfl, rfl, rfl⟩

end ModelDiscriminators

end Marshal
