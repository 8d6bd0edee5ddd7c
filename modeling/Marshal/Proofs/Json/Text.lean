import Marshal.Proofs.Json.Distinct
import Marshal.Proofs.Json.Scanning

/-!
Reading the text that a value is written as. The value comes back, unless an object in it has the
reserved name first: such an object stands for a number.
-/

namespace Marshal

namespace Json

mutual

def nesting : Json → Nat
  | array items => itemNesting items + 1
  | object members => memberNesting members + 1
  | _ => 0

def itemNesting : List Json → Nat
  | [] => 0
  | v :: vs => max (nesting v) (itemNesting vs)

def memberNesting : List (String × Json) → Nat
  | [] => 0
  | (_, v) :: ms => max (nesting v) (memberNesting ms)

end

/-- The number that an object with the reserved name stands for: its only member spells it. -/
def numberOf? : Json → List (String × Json) → Option Json
  | string t, [] => (Token.number? t.toList).map fun t => number (String.ofList t)
  | _, _ => none

mutual

/-- What the text of a value is read as. -/
def reread? : Json → Option Json
  | array items => (rereadItems? items).map array
  | object [] => some (object [])
  | object ((k, v) :: ms) =>
    if k = numberName then numberOf? v ms
    else (reread? v).bind fun w => (rereadMembers? ms).map fun ns => object ((k, w) :: ns)
  | v => some v

def rereadItems? : List Json → Option (List Json)
  | [] => some []
  | v :: vs => (reread? v).bind fun w => (rereadItems? vs).map (w :: ·)

def rereadMembers? : List (String × Json) → Option (List (String × Json))
  | [] => some []
  | (k, v) :: ms => (reread? v).bind fun w => (rereadMembers? ms).map ((k, w) :: ·)

end

namespace Reader

/-! ### Runs of the machine -/

def run? (limit : Nat) (ts : List Token) (r : Reader) : Option Reader :=
  ts.foldlM (next? limit) r

theorem run?_cons (limit : Nat) (t : Token) (ts : List Token) (r : Reader) :
    run? limit (t :: ts) r = (r.next? limit t).bind (run? limit ts) :=
  List.foldlM_cons

theorem run?_append (limit : Nat) (ts ts' : List Token) (r : Reader) :
    run? limit (ts ++ ts') r = (run? limit ts r).bind (run? limit ts') :=
  List.foldlM_append

theorem run?_of_next {limit : Nat} {t : Token} {r q : Reader} (h : r.next? limit t = some q)
    (ts : List Token) : run? limit (t :: ts) r = run? limit ts q := by
  rw [run?_cons, h, Option.bind_some]

/-- No value begins with the end of an array. -/
theorem run?_item (limit : Nat) (v : Json) (ts : List Token) (stack : List Open) :
    run? limit (v.tokens ++ ts) (.item stack) = run? limit (v.tokens ++ ts) (.value stack) := by
  have hnext : ∀ t, t ≠ Token.endArray → (item stack).next? limit t = valueToken? limit stack t :=
    fun t ht => by cases t <;> first | exact absurd rfl ht | simp [next?]
  have hfirst : ∃ t us, v.tokens = t :: us ∧ t ≠ .endArray := by
    cases v with
    | array items => cases items <;> exact ⟨_, _, rfl, by simp⟩
    | object members =>
        cases members with
        | nil => exact ⟨_, _, rfl, by simp⟩
        | cons m ms => exact ⟨_, _, rfl, by simp⟩
    | _ => exact ⟨_, _, rfl, by simp⟩
  obtain ⟨t, us, hv, ht⟩ := hfirst
  rw [hv, List.cons_append, run?_cons, run?_cons, hnext t ht]
  rfl

/-- After the reserved name, only a string that spells a number and the end are taken. -/
theorem run?_number (limit : Nat) (v : Json) (ms : List (String × Json)) (stack : List Open) :
    run? limit (v.tokens ++ memberTokens ms) (.numberText stack) =
      (numberOf? v ms).map (complete · stack) := by
  cases v with
  | string t =>
      have htokens : (string t).tokens = [.scalar (.string t)] := rfl
      rw [htokens, List.singleton_append, run?_cons, next?, numberToken?]
      cases ht : Token.number? t.toList with
      | none => cases ms <;> simp [numberOf?, ht]
      | some u =>
          cases ms with
          | nil => simp [numberOf?, ht, memberTokens, run?, next?]
          | cons m ms => simp [numberOf?, memberTokens, run?, next?]
  | array items => cases items <;> rfl
  | object members =>
      cases members with
      | nil => rfl
      | cons m members => rfl
  | _ => rfl

variable {limit : Nat}

theorem next?_beginArray {stack : List Open} (h : stack.length + 1 < limit) :
    (value stack).next? limit .beginArray = some (.item (.array [] :: stack)) := by
  rw [next?, valueToken?, if_pos h]

theorem next?_beginObject {stack : List Open} (h : stack.length + 1 < limit) :
    (value stack).next? limit .beginObject = some (.firstName stack) := by
  rw [next?, valueToken?, if_pos h]

/-- A name and a colon within an object. -/
theorem run?_name (ts : List Token) (done : Members Json) (k : String) (stack : List Open) :
    run? limit (.scalar (.string k) :: .colon :: ts) (.name done stack) =
      run? limit ts (.value (.object done k :: stack)) := by
  rw [run?_of_next (q := .colon (.object done k :: stack)) rfl,
    run?_of_next (q := .value (.object done k :: stack)) rfl]

theorem run?_firstName (ts : List Token) (k : String) (stack : List Open) :
    run? limit (.scalar (.string k) :: .colon :: ts) (.firstName stack) =
      if k = numberName then run? limit ts (.numberText stack)
      else run? limit ts (.value (.object [] k :: stack)) := by
  split_ifs with hk
  · rw [run?_of_next (q := .numberColon stack), run?_of_next (q := .numberText stack) rfl]
    rw [next?, firstNameToken?, if_pos hk]
  · rw [run?_of_next (q := .colon (.object [] k :: stack)),
      run?_of_next (q := .value (.object [] k :: stack)) rfl]
    rw [next?, firstNameToken?, if_neg hk]

mutual

/-- The tokens of a value put in its place what the value is read as. -/
theorem run?_tokens : ∀ (v : Json), v.Distinct → ∀ stack : List Open,
    stack.length + v.nesting < limit →
    run? limit v.tokens (.value stack) = v.reread?.map (complete · stack)
  | null, _, _, _ | bool _, _, _, _ | number _, _, _, _ | string _, _, _, _ => rfl
  | array [], _, stack, hlimit => by
      rw [nesting, itemNesting] at hlimit
      rw [tokens, run?_of_next (next?_beginArray hlimit)]
      rfl
  | array (v :: vs), h, stack, hlimit => by
      obtain ⟨hv, hvs⟩ := List.forall_mem_cons.mp (distinct_array_iff.mp h)
      rw [nesting, itemNesting] at hlimit
      have hopen : (Open.array [] :: stack).length + v.nesting < limit := by
        rw [List.length_cons]
        omega
      rw [tokens, run?_of_next (next?_beginArray (by omega)), run?_item, run?_append,
        run?_tokens v hv _ hopen, reread?, rereadItems?]
      cases v.reread? with
      | none => rfl
      | some w =>
          have hrest := run?_itemTokens vs hvs [w] stack (by omega)
          simpa [complete, Function.comp_def] using hrest
  | object [], _, stack, hlimit => by
      rw [nesting, memberNesting] at hlimit
      rw [tokens, run?_of_next (next?_beginObject hlimit)]
      rfl
  | object ((k, v) :: ms), h, stack, hlimit => by
      obtain ⟨hnames, hmembers⟩ := distinct_object_iff.mp h
      obtain ⟨hv, hms⟩ := List.forall_mem_cons.mp hmembers
      rw [nesting, memberNesting] at hlimit
      have hopen : (Open.object [] k :: stack).length + v.nesting < limit := by
        rw [List.length_cons]
        omega
      rw [tokens, run?_of_next (next?_beginObject (by omega)), run?_firstName, reread?]
      split_ifs with hk
      · exact run?_number limit v ms stack
      · rw [run?_append, run?_tokens v hv _ hopen]
        cases v.reread? with
        | none => rfl
        | some w =>
            have hrest := run?_memberTokens ms hms [(k, w)] k stack hnames (by omega)
            simpa [complete, Members.put, Function.comp_def] using hrest

theorem run?_itemTokens : ∀ (vs : List Json), (∀ v ∈ vs, v.Distinct) → ∀ (done : List Json)
    (stack : List Open), stack.length + 1 + itemNesting vs < limit →
    run? limit (itemTokens vs) (.more (.array done) stack) =
      (rereadItems? vs).map fun ws => complete (.array (done.reverse ++ ws)) stack
  | [], _, done, stack, _ => by
      rw [rereadItems?, Option.map_some, List.append_nil]
      rfl
  | v :: vs, h, done, stack, hlimit => by
      obtain ⟨hv, hvs⟩ := List.forall_mem_cons.mp h
      rw [itemNesting] at hlimit
      have hopen : (Open.array done :: stack).length + v.nesting < limit := by
        rw [List.length_cons]
        omega
      rw [itemTokens, run?_of_next (q := .value (.array done :: stack)) rfl, run?_append,
        run?_tokens v hv _ hopen, rereadItems?]
      cases v.reread? with
      | none => rfl
      | some w =>
          have hrest := run?_itemTokens vs hvs (w :: done) stack (by omega)
          simpa [complete, Function.comp_def] using hrest

theorem run?_memberTokens : ∀ (ms : Members Json), (∀ m ∈ ms, m.2.Distinct) →
    ∀ (done : Members Json) (key : String) (stack : List Open), (done.keys ++ ms.keys).Nodup →
    stack.length + 1 + memberNesting ms < limit →
    run? limit (memberTokens ms) (.more (.object done key) stack) =
      (rereadMembers? ms).map fun ns => complete (.object (done ++ ns)) stack
  | [], _, done, key, stack, _, _ => by
      rw [rereadMembers?, Option.map_some, List.append_nil]
      rfl
  | (k, v) :: ms, h, done, key, stack, hnodup, hlimit => by
      obtain ⟨hv, hms⟩ := List.forall_mem_cons.mp h
      rw [memberNesting] at hlimit
      have hopen : (Open.object done k :: stack).length + v.nesting < limit := by
        rw [List.length_cons]
        omega
      rw [memberTokens, run?_of_next (q := .name done stack) rfl, run?_name, run?_append,
        run?_tokens v hv _ hopen, rereadMembers?]
      cases v.reread? with
      | none => rfl
      | some w =>
          have hput := Members.put_of_not_mem (Members.not_mem_of_nodup hnodup) w
          have hrest := run?_memberTokens ms hms (done ++ [(k, w)]) k stack
            (Members.nodup_concat hnodup w) (by omega)
          simpa [complete, hput, Function.comp_def] using hrest

end

end Reader

/-- The text of a value is read as the value, but for objects that stand for numbers. -/
theorem ofString?_text {v : Json} (hspelled : v.Spelled) (hdistinct : v.Distinct)
    (hnesting : v.nesting < nestingLimit) : ofString? v.text = v.reread? := by
  have hrun := Reader.run?_tokens v hdistinct [] (by simpa using hnesting)
  rw [ofString?, text, String.toList_ofList, ofChars?, tokens?_chars hspelled, Option.bind_some,
    ofTokens?]
  show (Reader.run? nestingLimit v.tokens (.value [])).bind Reader.value? = _
  rw [hrun]
  cases v.reread? <;> rfl

end Json

end Marshal
