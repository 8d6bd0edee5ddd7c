import Marshal.Proofs.Json.Node

/-!
What the typed reads of a node look at. It is the value there and nothing else; the place shows in
errors only.
-/

namespace Marshal

namespace JsonNode

variable {α β : Type}

/-- What is read depends on the value alone, and an error names the place. -/
def Local (f : JsonNode → Result α) : Prop :=
  ∀ n m : JsonNode, n.value = m.value →
    (∃ a, f n = .ok a ∧ f m = .ok a) ∨
      ∃ cause, f n = .error (.parse n.path cause) ∧ f m = .error (.parse m.path cause)

theorem local_pure (a : α) : Local fun _ => .ok a :=
  fun _ _ _ => .inl ⟨a, rfl, rfl⟩

theorem local_mismatch (wanted : Wanted) : Local (α := α) fun n => n.mismatch wanted := by
  intro n m h
  refine .inr ⟨.expected wanted m.value.found, ?_, rfl⟩
  simp only [mismatch, h]

theorem Local.bind {f : JsonNode → Result α} {g : JsonNode → α → Result β} (hf : Local f)
    (hg : ∀ a, Local fun n => g n a) : Local fun n => f n >>= g n := by
  intro n m h
  rcases hf n m h with ⟨a, hn, hm⟩ | ⟨cause, hn, hm⟩
  · simp only [hn, hm]
    exact hg a n m h
  · simp only [hn, hm]
    exact .inr ⟨cause, rfl, rfl⟩

theorem local_text? : Local text? := by
  intro n m h
  cases hm : m.value <;> simp [text?, mismatch, h, hm]

theorem local_integer? (wanted : Wanted) : Local fun n => n.integer? wanted := by
  intro n m h
  cases hm : m.value with
  | number t => cases ht : Json.integer? t <;> simp [integer?, mismatch, h, hm, ht]
  | string s =>
      cases hs : readInt64? (Text.trimChars s.toList) <;> simp [integer?, mismatch, h, hm, hs]
  | _ => simp [integer?, mismatch, h, hm]

theorem local_narrow? {fit? : Int → Option α} (wanted : Wanted) :
    Local fun n => n.narrow? wanted fit? := by
  refine (local_integer? wanted).bind fun i => ?_
  cases i with
  | none => exact local_pure none
  | some i =>
      dsimp only
      cases fit? i.toInt with
      | none => exact local_mismatch wanted
      | some v => exact local_pure (some v)

theorem local_double? : Local double? := by
  intro n m h
  cases hm : m.value with
  | number t => cases ht : Json.double? t <;> simp [double?, mismatch, h, hm, ht]
  | string s =>
      cases hs : Double.ofChars? (Text.trimChars s.toList) <;> simp [double?, mismatch, h, hm, hs]
  | _ => simp [double?, mismatch, h, hm]

theorem local_bool? : Local bool? := by
  intro n m h
  cases hm : m.value with
  | string s => cases hs : Kind.readBool? s <;> simp [bool?, mismatch, h, hm, hs]
  | _ => simp [bool?, mismatch, h, hm]

theorem local_ofText (k : Kind) (s : String) : Local fun n => k.ofText n.path s := by
  intro n m h
  cases k with
  | string => exact .inl ⟨s, rfl, rfl⟩
  | _ =>
      simp only [Kind.ofText]
      split <;> simp

theorem local_ofText? (k : Kind) (s : Option String) : Local fun n => k.ofText? n.path s := by
  cases s with
  | none => exact local_pure none
  | some s => exact (local_ofText k s).bind fun v => local_pure (some v)

theorem local_decimal? : Local decimal? := by
  intro n m h
  cases hm : m.value with
  | number t | string t =>
      simp only [decimal?, h, hm]
      exact local_ofText? .decimal (some t) n m h
  | _ => simp [decimal?, mismatch, h, hm]

theorem local_read? (k : Kind) : Local fun n => n.read? k := by
  cases k with
  | string => exact local_text?
  | bool => exact local_bool?
  | byte | sbyte | int => exact local_narrow? _
  | long => exact local_integer? _
  | float => exact local_double?.bind fun x => local_pure (x.map Double.toSingle)
  | double => exact local_double?
  | decimal => exact local_decimal?
  | _ => exact local_text?.bind fun s => local_ofText? _ s

end JsonNode

end Marshal
