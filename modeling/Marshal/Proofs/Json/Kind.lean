import Mathlib.Algebra.Group.Int.Defs
import Marshal.Draft.Json
import Marshal.Node
import Marshal.Proofs.Bytes.Base64
import Marshal.Proofs.Calendar.DateTime
import Marshal.Proofs.Calendar.Duration
import Marshal.Proofs.Decimal
import Marshal.Proofs.Guid

/-!
Scalars of every kind in a JSON document: the value that one is written as, and what is read back
there.
-/

namespace Marshal

namespace Kind

def json : (k : Kind) → k.Carrier → Json
  | .string, s => .string s
  | .bool, b => .bool b
  | .byte, n => .number (intText n.toNat)
  | .sbyte, n => .number (intText n.toInt)
  | .int, n => .number (intText n.toInt)
  | .long, n => .number (intText n.toInt)
  | .float, x => Json.ofDouble (Json.widen x)
  | .double, x => Json.ofDouble x
  | .decimal, x => .number x.normalize.text
  | .guid, g => .string g.text
  | .date, d => .string d.text
  | .time, t => .string t.text
  | .dateTime, t => .string (String.ofList (Rfc3339.chars t))
  | .timeSpan, d => .string d.text
  | .bytes, b => .string (Base64.encode b)

/-- The scalars that come back from JSON. Nothing is said of the floating point ones. -/
def Survives : (k : Kind) → k.Carrier → Prop
  | .float, _ => False
  | .double, _ => False
  | .dateTime, t => t.HasText
  | .timeSpan, d => d.seconds ≠ -(secondsLimit : Int)
  | _, _ => True

def readBack : (k : Kind) → k.Carrier → k.Carrier
  | .decimal, x => x.normalize
  | _, v => v

end Kind

/-! ### Numbers -/

theorem toInt64?_toInt (n : Int64) : toInt64? n.toInt = some n := by
  have hlo := n.le_toInt
  have hhi := n.toInt_lt
  rw [toInt64?, if_pos ⟨by simpa using hlo, by simpa using hhi⟩, Int64.ofInt_toInt]

theorem Json.integer?_intText (n : Int64) : Json.integer? (intText n.toInt) = some n := by
  rw [Json.integer?, intText, String.toList_ofList, readInt64?, readInt?_intChars, Option.bind_some,
    toInt64?_toInt]

namespace JsonNode

theorem integer?_eq {n : JsonNode} {i : Int64} (hn : n.value = .number (intText i.toInt))
    (wanted : Wanted) : n.integer? wanted = .ok (some i) := by
  rw [JsonNode.integer?, hn]
  simp only [Json.integer?_intText]

theorem narrow?_eq {α : Type} {n : JsonNode} {i : Int} {v : α} {fit? : Int → Option α}
    (hn : n.value = .number (intText i)) (hlo : -2 ^ 63 ≤ i) (hhi : i < 2 ^ 63)
    (hfit : fit? i = some v) (wanted : Wanted) : n.narrow? wanted fit? = .ok (some v) := by
  have hi : (Int64.ofInt i).toInt = i := Int64.toInt_ofInt_of_le hlo hhi
  have hint := integer?_eq (n := n) (i := Int64.ofInt i) (by rw [hi, hn]) wanted
  simp only [narrow?, hint, hi, hfit, bind, Except.bind, pure, Except.pure]

end JsonNode

namespace Kind

theorem ofText_of_ofTrimmed? {k : Kind} (hk : k ≠ .string) {s : String} {v : k.Carrier}
    (h : k.ofTrimmed? (Text.trim s) = some v) (path : String) : k.ofText path s = .ok v := by
  cases k with
  | string => exact absurd rfl hk
  | _ => simp only [ofText, h]

theorem ofTrimmed?_of_ofText {k : Kind} (hk : k ≠ .string) {path s : String} {v : k.Carrier}
    (h : k.ofText path s = .ok v) : k.ofTrimmed? (Text.trim s) = some v := by
  cases hread : k.ofTrimmed? (Text.trim s) with
  | some w =>
      rw [ofText_of_ofTrimmed? hk hread] at h
      cases h
      rfl
  | none =>
      cases k with
      | string => exact absurd rfl hk
      | _ =>
          simp only [ofText, hread] at h
          cases h

/-- A text that is found in a string. -/
theorem read?_string {k : Kind}
    (hk : k ∈ [Kind.guid, .date, .time, .dateTime, .timeSpan, .bytes]) {n : JsonNode} {s : String}
    (hn : n.value = .string s) {v : k.Carrier} (h : k.ofTrimmed? (Text.trim s) = some v) :
    n.read? k = .ok (some v) := by
  have htext : n.text? = .ok (some s) := by rw [JsonNode.text?, hn]
  -- These kinds are all read alike; the others have readers of their own.
  have hread : n.read? k = (do k.ofText? n.path (← n.text?)) := by
    simp only [List.mem_cons, List.not_mem_nil, or_false] at hk
    rcases hk with rfl | rfl | rfl | rfl | rfl | rfl <;> rfl
  have hne : k ≠ .string := by
    rintro rfl
    simp at hk
  rw [hread, htext]
  simp only [bind, Except.bind, ofText?, ofText_of_ofTrimmed? hne h, Except.map]

/-- A scalar is read back where it was written. -/
theorem read?_json {k : Kind} {v : k.Carrier} (h : k.Survives v) {n : JsonNode}
    (hn : n.value = k.json v) : n.read? k = .ok (some (k.readBack v)) := by
  cases k with
  | string => simp only [JsonNode.read?, JsonNode.text?, hn, json, readBack]
  | bool => simp only [JsonNode.read?, JsonNode.bool?, hn, json, readBack]
  | byte =>
      have hlt := UInt8.toNat_lt v
      have hfit : toUInt8? (UInt8.toNat v : Int) = some v := by
        rw [toUInt8?, if_pos (by omega), Int.toNat_natCast, UInt8.ofNat_toNat]
      exact JsonNode.narrow?_eq hn (by omega) (by omega) hfit _
  | sbyte =>
      have hlo := Int8.le_toInt v
      have hhi := Int8.toInt_lt v
      have hfit : toInt8? (Int8.toInt v) = some v := by
        rw [toInt8?, if_pos (by omega), Int8.ofInt_toInt]
      exact JsonNode.narrow?_eq hn (by omega) (by omega) hfit _
  | int =>
      have hlo := Int32.le_toInt v
      have hhi := Int32.toInt_lt v
      have hfit : toInt32? (Int32.toInt v) = some v := by
        rw [toInt32?, if_pos (by omega), Int32.ofInt_toInt]
      exact JsonNode.narrow?_eq hn (by omega) (by omega) hfit _
  | long => exact JsonNode.integer?_eq hn _
  | float => exact h.elim
  | double => exact h.elim
  | decimal =>
      have hread := Decimal.ofChars?_chars (Decimal.normalize_signless v)
      have htext : Kind.decimal.ofText n.path (Decimal.text (Decimal.normalize v)) =
          .ok (Decimal.normalize v) := by
        refine ofText_of_ofTrimmed? (by decide) ?_ _
        rw [Decimal.text, Text.trim_ofList_of_solid (Decimal.solid_chars _), ofTrimmed?,
          String.toList_ofList, hread]
      simp only [JsonNode.read?, JsonNode.decimal?, hn, json, htext, Except.map, readBack]
  | guid =>
      refine read?_string (by simp) hn ?_
      rw [Guid.text, Text.trim_ofList_of_solid (Guid.solid_hyphenate v)]
      exact Guid.ofString?_text v
  | date =>
      refine read?_string (by simp) hn ?_
      rw [Date.text, Text.trim_ofList_of_solid (Date.solid_chars v)]
      exact Date.ofString?_text v
  | time =>
      refine read?_string (by simp) hn ?_
      rw [Clock.text, Text.trim_ofList_of_solid (Clock.solid_chars v)]
      exact Clock.ofString?_text v
  | dateTime =>
      refine read?_string (by simp) hn ?_
      rw [Text.trim_ofList_of_solid (Rfc3339.solid_chars v)]
      exact DateTime.HasText.ofString?_chars h
  | timeSpan =>
      refine read?_string (by simp) hn ?_
      rw [Duration.text, Text.trim_ofList_of_solid (Duration.solid_chars v)]
      exact Duration.ofString?_text h
  | bytes =>
      refine read?_string (by simp) hn ?_
      rw [Base64.encode, Text.trim_ofList_of_solid (Base64.solid_encodeChars v)]
      exact Base64.decode?_encode v

end Kind

end Marshal
