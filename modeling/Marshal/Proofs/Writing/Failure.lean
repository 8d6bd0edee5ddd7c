import Marshal.Proofs.Writing.Form
import Marshal.Proofs.Writing.Json

/-!
Calls that fail. Nearly all of them look before they change anything, and leave the payload as it
was. The end of a container of a JSON document takes the innermost container off before it looks
whether that is of the right kind and has a place to go to; so if it fails, that container is lost.
-/

namespace Marshal

def Call.IsEnd : Call → Prop
  | endObject | endCollection => True
  | _ => False

/-! ### Format by format -/

namespace JsonDraft

variable {d d' : JsonDraft} {e : Error}

def dropInnermost (d : JsonDraft) : JsonDraft :=
  { d with stack := d.stack.tail }

theorem eq_of_put_error {key : Option String} {v : Json} (h : d.put key v = (.error e, d')) :
    d' = d := by
  rw [put] at h
  split at h
  · split at h
    · cases h
    · cases h
      rfl
  · cases h
  · split at h
    · cases h
      rfl
    · cases h

theorem eq_of_putSome_error {key : Option String} {v : Option Json}
    (h : d.putSome key v = (.error e, d')) : d' = d := by
  cases v with
  | none => cases h
  | some v => exact eq_of_put_error h

theorem eq_of_unmatchedEnd {what : Container} (h : d.unmatchedEnd what = (.error e, d')) :
    d' = d.dropInnermost := by
  cases h
  rfl

/-- The container is off the stack when it is put where it belongs, and that may fail. -/
theorem eq_of_endObject_error (h : d.endObject = (.error e, d')) : d' = d.dropInnermost := by
  rw [endObject] at h
  split at h
  · rename_i hstack
    rw [eq_of_put_error h, dropInnermost, hstack]
    rfl
  · exact eq_of_unmatchedEnd h

theorem eq_of_endCollection_error (h : d.endCollection = (.error e, d')) :
    d' = d.dropInnermost := by
  rw [endCollection] at h
  split at h
  · rename_i hstack
    rw [eq_of_put_error h, dropInnermost, hstack]
    rfl
  · exact eq_of_unmatchedEnd h

theorem eq_of_call_error {c : Call} (hc : ¬ c.IsEnd) (h : d.call c = (.error e, d')) :
    d' = d := by
  cases c with
  | endObject | endCollection => exact absurd trivial hc
  | startObject | startCollection => cases h
  | null => exact eq_of_put_error h
  | string | bool | integer | single | double | decimal | bytes => exact eq_of_putSome_error h

theorem eq_of_end_error {c : Call} (hc : c.IsEnd) (h : d.call c = (.error e, d')) :
    d' = d.dropInnermost := by
  cases c with
  | endObject => exact eq_of_endObject_error h
  | endCollection => exact eq_of_endCollection_error h
  | _ => cases hc

theorem dropInnermost_of_nil (h : d.stack = []) : d.dropInnermost = d := by
  rw [dropInnermost, h, List.tail_nil, ← h]

/-- The number of open containers tells, if the document is finished, that one is gone. -/
theorem finish_dropInnermost_ne (h : d.stack ≠ []) :
    (finish d.dropInnermost).1 ≠ (finish d).1 := by
  obtain ⟨stack, root⟩ := d
  cases stack with
  | nil => exact absurd rfl h
  | cons f stack =>
      cases stack with
      | nil => simp [finish, dropInnermost]
      | cons g stack => simp [finish, dropInnermost]

theorem dropInnermost_ne (h : d.stack ≠ []) : d.dropInnermost ≠ d :=
  fun heq => finish_dropInnermost_ne h (by rw [heq])

end JsonDraft

theorem TextDraft.eq_of_call_error {c : Call} {d d' : TextDraft} {e : Error}
    (h : d.call c = (.error e, d')) : d' = d := by
  rw [call] at h
  split at h
  · rw [put] at h
    split at h
    · cases h
      rfl
    · split at h
      · cases h
        rfl
      · cases h
  · cases h
  · cases h
    rfl

namespace FormDraft

variable {d d' : FormDraft} {e : Error}

theorem eq_of_put_error {key : Option String} {s : String} (h : d.put key s = (.error e, d')) :
    d' = d := by
  rw [put] at h
  split at h
  · cases h
    rfl
  · split at h
    · cases h
    · cases h
      rfl

theorem eq_of_line_error {c : Call} {v : Option String} (hc : c.lineText? = some v)
    (h : d.call c = (.error e, d')) : d' = d := by
  cases v with
  | none =>
      rw [call_absent hc] at h
      cases h
  | some s =>
      rw [call_line hc] at h
      exact eq_of_put_error h

theorem eq_of_call_error {c : Call} (h : d.call c = (.error e, d')) : d' = d := by
  cases c with
  | startObject key subject =>
      rw [call, startObject] at h
      split at h
      · cases h
        rfl
      · cases h
  | endObject =>
      rw [call, endObject] at h
      split at h
      · cases h
      · cases h
        rfl
  | startCollection key =>
      rw [call, startCollection.eq_def] at h
      split at h
      · cases h
        rfl
      · cases h
        rfl
      · cases h
  | endCollection => cases h
  | string | bool | integer | single | double | decimal | bytes | null =>
      exact eq_of_line_error rfl h

end FormDraft

theorem MultipartDraft.eq_of_call_error {c : Call} {d d' : MultipartDraft} {e : Error}
    (h : d.call c = (.error e, d')) : d' = d := by
  have hline {key v : Option String} (h : d.putLine key v = (.error e, d')) : d' = d := by
    rw [putLine] at h
    split at h <;> cases h
  cases c with
  | string => exact hline h
  | decimal => exact hline h
  | bytes => cases h
  | endObject => cases h
  | startObject =>
      rw [call] at h
      split at h
      · cases h
      · cases h
        rfl
  | bool | integer | single | double | null | startCollection | endCollection =>
      cases h
      rfl

/-! ### What a failed call changes -/

namespace Draft

variable {σ : Type} [Draft σ]

/-- The state after these calls, whether they fail or not. -/
def attempt (cs : Script) (s : σ) : σ :=
  cs.foldl (fun s c => (run [c] s).2) s

def payloadAfter (cs : Script) (s : σ) : Result Bytes :=
  (finish (attempt cs s)).1

end Draft

namespace AnyDraft

/-- The call is the end of a container of a JSON document that has one open. -/
def Closing (c : Result Call) (x : AnyDraft) : Prop :=
  ∃ end? d, c = .ok end? ∧ end?.IsEnd ∧ x = json d ∧ d.stack ≠ []

variable {c : Call} {x x' : AnyDraft} {e : Error}

/-- What is done to a draft is done to it under its format. -/
theorem exists_of_map {σ α : Type} {p : α × σ} {format : σ → AnyDraft} {a : α}
    (h : p.map id format = (a, x')) : ∃ s, p = (a, s) ∧ x' = format s := by
  obtain ⟨b, s⟩ := p
  cases h
  exact ⟨s, rfl, rfl⟩

/-- One step from any state: a call that fails leaves the payload as it was, or it is an end in a
JSON document and the innermost container is lost. -/
theorem eq_or_dropped_of_call_error (h : Draft.call c x = (.error e, x')) :
    x' = x ∧ ¬ Closing (.ok c) x ∨
      ∃ d, c.IsEnd ∧ x = json d ∧ d.stack ≠ [] ∧ x' = json d.dropInnermost := by
  cases x with
  | json d =>
      obtain ⟨d', hcall, rfl⟩ := exists_of_map h
      by_cases hc : c.IsEnd
      · obtain rfl := JsonDraft.eq_of_end_error hc hcall
        by_cases hstack : d.stack = []
        · refine .inl ⟨by rw [JsonDraft.dropInnermost_of_nil hstack], ?_⟩
          rintro ⟨_, _, -, -, ⟨⟩, hne⟩
          exact hne hstack
        · exact .inr ⟨d, hc, rfl, hstack, rfl⟩
      · obtain rfl := JsonDraft.eq_of_call_error hc hcall
        refine .inl ⟨rfl, ?_⟩
        rintro ⟨_, _, ⟨⟩, hend, -⟩
        exact hc hend
  | form d =>
      obtain ⟨d', hcall, rfl⟩ := exists_of_map h
      obtain rfl := FormDraft.eq_of_call_error hcall
      exact .inl ⟨rfl, by rintro ⟨_, _, -, -, ⟨⟩, -⟩⟩
  | text d =>
      obtain ⟨d', hcall, rfl⟩ := exists_of_map h
      obtain rfl := TextDraft.eq_of_call_error hcall
      exact .inl ⟨rfl, by rintro ⟨_, _, -, -, ⟨⟩, -⟩⟩
  | multipart d =>
      obtain ⟨d', hcall, rfl⟩ := exists_of_map h
      obtain rfl := MultipartDraft.eq_of_call_error hcall
      exact .inl ⟨rfl, by rintro ⟨_, _, -, -, ⟨⟩, -⟩⟩
  | transcript t => cases h

/-- A call that fails leaves the payload as it was, if and only if it is no end of a container of a
JSON document that has one open; and only then whatever is done next comes to the same in the end as
if the call had not been made. -/
theorem unchanged_of_error_iff {c : Result Call} (h : Draft.run [c] x = (.error e, x')) :
    (x' = x ↔ ¬ Closing c x) ∧
      ((∀ cs, Draft.payloadAfter cs x' = Draft.payloadAfter cs x) ↔ ¬ Closing c x) := by
  have hcases : x' = x ∧ ¬ Closing c x ∨ ∃ d, x = json d ∧ d.stack ≠ [] ∧
      x' = json d.dropInnermost ∧ Closing c x := by
    cases c with
    | error e' =>
        cases h
        refine .inl ⟨rfl, ?_⟩
        rintro ⟨_, _, ⟨⟩, -⟩
    | ok c =>
        have hcall : Draft.call c x = (.error e, x') := by
          rw [Draft.run] at h
          split at h
          · cases h
          · rename_i hcall
            cases h
            exact hcall
        refine (eq_or_dropped_of_call_error hcall).imp_right ?_
        rintro ⟨d, hc, rfl, hstack, rfl⟩
        exact ⟨d, rfl, hstack, rfl, c, d, rfl, hc, rfl, hstack⟩
  rcases hcases with ⟨rfl, hclosing⟩ | ⟨d, rfl, hstack, rfl, hclosing⟩
  · exact ⟨iff_of_true rfl hclosing, iff_of_true (fun _ => rfl) hclosing⟩
  · have hnot := not_not_intro hclosing
    refine ⟨iff_of_false (fun heq => ?_) hnot, iff_of_false (fun hsame => ?_) hnot⟩
    · exact JsonDraft.dropInnermost_ne hstack (json.inj heq)
    · exact JsonDraft.finish_dropInnermost_ne hstack (hsame [])

/-- A member without a name is refused and forgotten; the end of an object where a collection is
open takes the collection with it. -/
theorem unchanged_of_error_iff_open_collection :
    let x : AnyDraft := json { stack := [.array (some "a") [.null], .object none []] }
    let unnamed : Result Call := .ok (.null none)
    Draft.run [.ok .endObject] x =
        (.error (.unsupported (.unmatchedEnd .object
          "Some(Array \x7b key: Some(\"a\"), items: [Null] \x7d)")),
          json { stack := [.object none []] }) ∧
      json { stack := [.object none []] } ≠ x ∧
      Draft.run [unnamed] (json { stack := [.object none []] }) =
        (.error (.unsupported .unnamedMember), json { stack := [.object none []] }) ∧
      ¬ Closing unnamed (json { stack := [.object none []] }) := by
  intro x unnamed
  have hend : Draft.run [.ok .endObject] x =
      (.error (.unsupported (.unmatchedEnd .object
        "Some(Array \x7b key: Some(\"a\"), items: [Null] \x7d)")),
        json { stack := [.object none []] }) := by
    rfl
  have hclosing : Closing (.ok .endObject) x := ⟨_, _, rfl, trivial, rfl, List.cons_ne_nil _ _⟩
  exact ⟨hend, (unchanged_of_error_iff hend).1.not.mpr (not_not_intro hclosing), rfl,
    (unchanged_of_error_iff (x := json { stack := [.object none []] }) (c := unnamed) rfl).1.mp rfl⟩

/-- An array that is open, with one item. The end of an object is refused, and after it there is no
array to end and nothing to come out. -/
theorem payload_lost_by_endObject :
    let x := Draft.attempt [.ok (.startCollection none), .ok (.string none (some "a"))] (json {})
    (∃ e, (Draft.call .endObject x).1 = .error e) ∧ (Draft.call .endObject x).2 ≠ x ∧
      Draft.payloadAfter [.ok .endCollection] x = .ok (Bytes.ofString "[\"a\"]") ∧
      Draft.payloadAfter [.ok .endObject, .ok .endCollection] x = .ok [] := by
  refine ⟨⟨_, rfl⟩, ?_, rfl, rfl⟩
  rintro ⟨⟩

end AnyDraft

end Marshal
