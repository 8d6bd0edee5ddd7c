import Mathlib.Data.List.ReduceOption
import Marshal.Field
import Marshal.Proofs.Json.Kind
import Marshal.Proofs.Json.Node
import Marshal.Proofs.Writing.Json

/-!
Codecs in a JSON document. `Codec.Carries` ties the two sides of a codec together by the value that
stands in the document between them.
-/

namespace Marshal

/-- Writing `v` adds the member `j`, or nothing, and reading there gives `back`. -/
structure Codec.Carries {V : Type} (c : Codec V) (v : Option V) (j : Option Json)
    (back : Option V) : Prop where
  adds : ∀ name, Script.Adds (c.script (some name) v) (j.toList.map (name, ·))
  reads : ∀ n : JsonNode, j = some n.value → n.Room n.value.depth →
    c.read? (.json n) = .ok back
  absent : j = none → back = none

theorem reduceOption_map_some {α : Type} (l : List α) : (l.map some).reduceOption = l := by
  induction l with
  | nil => rfl
  | cons a l ih => rw [List.map_cons, List.reduceOption_cons_of_some, ih]

namespace JsonNode

theorem Room.ofArray {n : JsonNode} {items : List Json} (hn : n.value = .array items)
    (h : n.Room n.value.depth) : items ≠ [] → n.Room 1 := by
  intro hne
  cases items with
  | nil => exact absurd rfl hne
  | cons v vs =>
      rw [hn, Json.depth, Json.depthItems] at h
      exact h.mono (by omega)

end JsonNode

namespace Kind

variable {k : Kind}

/-- The scalars that can be written: all but times without a text. -/
def Expressible : (k : Kind) → k.Carrier → Prop
  | .dateTime, t => t.HasText
  | _, _ => True

theorem Survives.expressible {v : k.Carrier} (h : k.Survives v) : k.Expressible v := by
  cases k with
  | dateTime => exact h
  | _ => trivial

theorem call_eq {v : Option k.Carrier} (h : ∀ x ∈ v, k.Expressible x) (key : Option String) :
    ∃ c, k.call key v = .ok c ∧ ∀ d : JsonDraft, d.call c = d.putSome key (v.map k.json) := by
  cases v with
  | none => cases k <;> exact ⟨_, rfl, fun _ => rfl⟩
  | some v =>
      -- Integers of all widths go out as 64 bits, and none of them is cut.
      cases k with
      | byte =>
          have hint : (Int64.ofNat (UInt8.toNat v)).toInt = UInt8.toNat v :=
            Int64.toInt_ofNat_of_lt (Nat.lt_trans (UInt8.toNat_lt v) (by decide))
          refine ⟨_, rfl, ?_⟩
          intro d
          simp [JsonDraft.call, json, hint]
      | sbyte =>
          have hlo := Int8.le_toInt v
          have hhi := Int8.toInt_lt v
          have hint : (Int64.ofInt (Int8.toInt v)).toInt = Int8.toInt v :=
            Int64.toInt_ofInt_of_le (by omega) (by omega)
          refine ⟨_, rfl, ?_⟩
          intro d
          simp only [JsonDraft.call, json, hint, Option.map_some]
      | int =>
          have hlo := Int32.le_toInt v
          have hhi := Int32.toInt_lt v
          have hint : (Int64.ofInt (Int32.toInt v)).toInt = Int32.toInt v :=
            Int64.toInt_ofInt_of_le (by omega) (by omega)
          refine ⟨_, rfl, ?_⟩
          intro d
          simp only [JsonDraft.call, json, hint, Option.map_some]
      | dateTime =>
          have htext := DateTime.wireText_eq_ok_iff.mpr ⟨h v rfl, rfl⟩
          refine ⟨_, by rw [call, htext, Except.map], fun _ => rfl⟩
      | _ => exact ⟨_, rfl, fun _ => rfl⟩

theorem adds_codec {v : Option k.Carrier} (h : ∀ x ∈ v, k.Expressible x) (name : String) :
    Script.Adds (k.codec.script (some name) v) ((v.map k.json).toList.map (name, ·)) := by
  obtain ⟨c, hcall, hput⟩ := call_eq h (some name)
  have hscript : k.codec.script (some name) v = [.ok c] := by rw [← hcall]; rfl
  rw [hscript]
  exact Script.adds_call hput

theorem codec_carries {v : Option k.Carrier} (h : ∀ x ∈ v, k.Survives x) :
    k.codec.Carries v (v.map k.json) (v.map k.readBack) where
  adds := adds_codec fun x hx => (h x hx).expressible
  reads n hn _ := by
    cases v with
    | none => cases hn
    | some v => exact read?_json (h v rfl) (Option.some.inj hn).symm
  absent hn := by
    cases v with
    | none => rfl
    | some v => cases hn

theorem readBack_eq (hk : k ≠ .decimal) : k.readBack = id := by
  cases k with
  | decimal => exact absurd rfl hk
  | _ => rfl

/-- All kinds but decimals come back as they were. -/
theorem codec_carries_self (hk : k ≠ .decimal) {v : Option k.Carrier}
    (h : ∀ x ∈ v, k.Survives x) : k.codec.Carries v (v.map k.json) v := by
  simpa [readBack_eq hk] using codec_carries h

theorem readList?_json {vs : List k.Carrier} (h : ∀ x ∈ vs, k.Survives x) {n : JsonNode}
    (hn : n.value = .array (vs.map k.json)) (hroom : n.Room n.value.depth) :
    (Node.json n).readList? k = .ok (some (vs.map k.readBack)) := by
  have hitems : ((n.itemsBelow 0 (vs.map k.json)).map Node.json).mapM (·.read? k) =
      .ok ((vs.map k.readBack).map some) := by
    refine mapM_eq_pure (List.forall₂_map_left_iff.mpr (JsonNode.forall₂_itemsBelow ?_ 0))
    rw [List.forall₂_map_left_iff, List.forall₂_map_right_iff, List.forall₂_map_right_iff,
      List.forall₂_same]
    exact fun v hv step => read?_json (h v hv) rfl
  rw [Node.readList?, Node.elements?_json hn (hroom.ofArray hn)]
  simp only [bind, Except.bind, hitems, pure, Except.pure, reduceOption_map_some]

theorem listCodec_carries {vs : Option (List k.Carrier)} (h : ∀ l ∈ vs, ∀ x ∈ l, k.Survives x) :
    k.listCodec.Carries vs (vs.map fun l => .array (l.map k.json)) (vs.map (·.map k.readBack)) where
  adds name := by
    cases vs with
    | none => exact Script.adds_nil
    | some l =>
        refine Script.adds_collection ?_ name
        rw [List.forall₂_map_left_iff, List.forall₂_map_right_iff, List.forall₂_same]
        intro v hv
        refine call_eq (v := some v) ?_ none
        intro x hx
        obtain rfl := Option.some.inj hx
        exact (h l rfl v hv).expressible
  reads n hn hroom := by
    cases vs with
    | none => cases hn
    | some l => exact readList?_json (h l rfl) (Option.some.inj hn).symm hroom
  absent hn := by
    cases vs with
    | none => rfl
    | some l => cases hn

theorem listCodec_carries_self (hk : k ≠ .decimal) {vs : Option (List k.Carrier)}
    (h : ∀ l ∈ vs, ∀ x ∈ l, k.Survives x) :
    k.listCodec.Carries vs (vs.map fun l => .array (l.map k.json)) vs := by
  simpa [readBack_eq hk] using listCodec_carries h

end Kind

namespace WireEnum

variable {V : Type} [DecidableEq V] {e : WireEnum V}

def Named (e : WireEnum V) (v : V) : Prop :=
  (e.write? v).bind e.read? = some v

instance (e : WireEnum V) (v : V) : Decidable (e.Named v) :=
  inferInstanceAs (Decidable (_ = _))

def json (e : WireEnum V) (v : V) : Json :=
  .string ((e.write? v).getD "")

theorem Named.readNode? {v : V} (h : e.Named v) {n : JsonNode} (hn : n.value = e.json v) :
    e.readNode? (.json n) = .ok (some v) := by
  obtain ⟨s, hwrite, hread⟩ := Option.bind_eq_some_iff.mp h
  have htext : (Node.json n).text? = .ok (some s) := by
    simp only [Node.text?, Node.read?, JsonNode.read?, JsonNode.text?, hn, json, hwrite,
      Option.getD_some]
  simp only [WireEnum.readNode?, htext, bind, Except.bind, Option.bind, hread, pure, Except.pure]

theorem Named.script_eq {v : V} (h : e.Named v) (key : Option String) :
    ∃ c, e.script key (some v) = [.ok c] ∧ ∀ d : JsonDraft, d.call c = d.put key (e.json v) := by
  obtain ⟨s, hwrite, -⟩ := Option.bind_eq_some_iff.mp h
  refine ⟨.string key (some s), by simp [script, hwrite], ?_⟩
  intro d
  simp [JsonDraft.call, JsonDraft.putSome, json, hwrite]

theorem codec_carries {v : Option V} (h : ∀ x ∈ v, e.Named x) :
    e.codec.Carries v (v.map e.json) v where
  adds name := by
    cases v with
    | none => exact Script.adds_nil
    | some v =>
        obtain ⟨c, hscript, hput⟩ := (h v rfl).script_eq (some name)
        have hcodec : e.codec.script (some name) (some v) = [.ok c] := hscript
        rw [hcodec]
        exact Script.adds_call (v := some (e.json v)) hput
  reads n hn _ := by
    cases v with
    | none => cases hn
    | some v => exact (h v rfl).readNode? (Option.some.inj hn).symm
  absent hn := by
    cases v with
    | none => rfl
    | some v => cases hn

theorem puts_scripts {vs : List V} (h : ∀ x ∈ vs, e.Named x) :
    List.Forall₂ Script.Puts (vs.flatMap fun v => e.script none (some v)) (vs.map e.json) := by
  induction vs with
  | nil => exact .nil
  | cons v vs ih =>
      obtain ⟨c, hscript, hput⟩ := (h v (by simp)).script_eq none
      rw [List.flatMap_cons, hscript, List.map_cons, List.singleton_append]
      exact .cons ⟨c, rfl, hput⟩ (ih fun x hx => h x (by simp [hx]))

theorem readNodes?_json {vs : List V} (h : ∀ x ∈ vs, e.Named x) {n : JsonNode}
    (hn : n.value = .array (vs.map e.json)) (hroom : n.Room n.value.depth) :
    e.readNodes? (.json n) = .ok (some vs) := by
  have hitems : ((n.itemsBelow 0 (vs.map e.json)).map Node.json).mapM e.readNode? =
      .ok (vs.map some) := by
    refine mapM_eq_pure (List.forall₂_map_left_iff.mpr (JsonNode.forall₂_itemsBelow ?_ 0))
    rw [List.forall₂_map_left_iff, List.forall₂_map_right_iff, List.forall₂_same]
    exact fun v hv step => (h v hv).readNode? rfl
  rw [readNodes?, Node.elements?_json hn (hroom.ofArray hn)]
  simp only [bind, Except.bind, hitems, pure, Except.pure, reduceOption_map_some]

theorem listCodec_carries {vs : Option (List V)} (h : ∀ l ∈ vs, ∀ x ∈ l, e.Named x) :
    e.listCodec.Carries vs (vs.map fun l => .array (l.map e.json)) vs where
  adds name := by
    cases vs with
    | none => exact Script.adds_nil
    | some l => exact Script.adds_collection (puts_scripts (h l rfl)) name
  reads n hn hroom := by
    cases vs with
    | none => cases hn
    | some l => exact readNodes?_json (h l rfl) (Option.some.inj hn).symm hroom
  absent hn := by
    cases vs with
    | none => rfl
    | some l => cases hn

end WireEnum

end Marshal
