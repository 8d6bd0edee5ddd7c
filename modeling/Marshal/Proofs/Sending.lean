import Mathlib.Logic.Function.Iterate
import Marshal.Proofs.Members
import Marshal.Proofs.Writing.Json
import Marshal.Serializer

/-!
From the writing of one value to a whole payload: finding the encoder, and taking the finished
document out.
-/

namespace Marshal

namespace Registry

variable {F : Type}

theorem find_mapAll (f : F → F) (r : Registry F) (contentType : String) :
    (r.mapAll f).find contentType = (r.find contentType).map fun found => (found.1, f found.2) := by
  -- The search goes by keys, and these stay as they are.
  have hkey (key : String) :
      (r.mapAll f).findKey? key = (r.findKey? key).map fun found => (found.1, f found.2) := by
    simp only [findKey?, mapAll, Members.get?_mapValues]
    cases hk : r.entries.get? key with
    | some _ => rfl
    | none =>
        cases hc : ContentType.vendorCleaned? key with
        | none => rfl
        | some cleaned => cases hf : r.entries.get? cleaned <;> simp [hf]
  cases hn : ContentType.normalize contentType with
  | error e => simp [find, hn, bind, Except.bind, Except.map]
  | ok key =>
      cases hf : r.findKey? key <;>
        simp [find, hn, hkey, hf, bind, Except.bind, pure, Except.pure, Except.map]

theorem find_iterate_mapAll (f : F → F) (n : Nat) (r : Registry F) (contentType : String) :
    ((mapAll f)^[n] r).find contentType =
      (r.find contentType).map fun found => (found.1, f^[n] found.2) := by
  induction n with
  | zero =>
      rw [Function.iterate_zero, id]
      cases r.find contentType <;> rfl
  | succ n ih =>
      rw [Function.iterate_succ_apply', find_mapAll, ih]
      cases r.find contentType with
      | error e => rfl
      | ok found => simp [Except.map, Function.iterate_succ_apply']

theorem mem_of_findKey? {r : Registry F} {key : String} {found : String × F}
    (h : r.findKey? key = some found) : found ∈ r.entries := by
  rw [findKey?] at h
  cases hk : r.entries.get? key with
  | some f =>
      rw [hk] at h
      exact Option.some.inj h ▸ Members.mem_of_get? hk
  | none =>
      simp only [hk, Option.bind_eq_bind, Option.bind_eq_some_iff] at h
      obtain ⟨cleaned, -, f, hf, hfound⟩ := h
      exact Option.some.inj hfound ▸ Members.mem_of_get? hf

theorem mem_of_find {r : Registry F} {contentType : String} {found : String × F}
    (h : r.find contentType = .ok found) : found ∈ r.entries := by
  cases hn : ContentType.normalize contentType with
  | error e => simp [find, hn, bind, Except.bind] at h
  | ok key =>
      cases hf : r.findKey? key with
      | none => simp [find, hn, hf, bind, Except.bind] at h
      | some found' =>
          obtain rfl : found' = found := by
            simpa [find, hn, hf, bind, Except.bind, pure, Except.pure] using h
          exact mem_of_findKey? hf

/-- What is found at all is found under a content type that is not empty. -/
theorem normalize_of_find {r : Registry F} {contentType : String} {found : String × F}
    (h : r.find contentType = .ok found) : ∃ key, ContentType.normalize contentType = .ok key := by
  cases hn : ContentType.normalize contentType with
  | error e => simp [find, hn, bind, Except.bind] at h
  | ok key => exact ⟨key, rfl⟩

end Registry

theorem Encoder.iterate_wrap (l : Layer) (n : Nat) (e : Encoder) :
    (Encoder.wrap l)^[n] e = { e with layers := List.replicate n l ++ e.layers } := by
  induction n with
  | zero => rfl
  | succ n ih => rw [Function.iterate_succ_apply', ih, wrap, List.replicate_succ, List.cons_append]

namespace Encoders

/-- Layers that keep stores in step, put around all encoders some times over. -/
theorem find_iterate_mapAll (n : Nat) (r : Encoders) (contentType : String) :
    ((Registry.mapAll (Encoder.wrap .changes))^[n] r).find contentType =
      (r.find contentType).map fun found =>
        (found.1, { found.2 with layers := List.replicate n .changes ++ found.2.layers }) := by
  simp only [Registry.find_iterate_mapAll, Encoder.iterate_wrap]

theorem find_wrapped {n : Nat} {r : Encoders} {contentType key : String}
    (h : r.find contentType = .ok (key, .json)) :
    ((Registry.mapAll (Encoder.wrap .changes))^[n] r).find contentType =
      .ok (key, { Encoder.json with layers := List.replicate n .changes }) := by
  rw [find_iterate_mapAll, h]
  simp [Except.map, Encoder.json]

theorem find_stock_json : stock.find ContentType.json = .ok (ContentType.json, .json) := rfl

theorem layers_of_find_stock {contentType : String} {found : String × Encoder}
    (h : Encoders.stock.find contentType = .ok found) : found.2.layers = [] := by
  have hmem : ∀ f ∈ Encoders.stock.entries, f.2.layers = [] := by decide
  exact hmem _ (Registry.mem_of_find h)

end Encoders

namespace Serializer

variable {α : Type}

theorem output_of_find {s : Serializer} {contentType key : String} {e : Encoder}
    (h : s.encoders.find contentType = .ok (key, e)) :
    s.output contentType = .ok (e.output key) := by
  obtain ⟨_, hn⟩ := Registry.normalize_of_find h
  simp [output, hn, Encoders.output, h, bind, Except.bind, pure, Except.pure]

theorem output_of_find_error {s : Serializer} {contentType : String} {e : Error}
    (h : s.encoders.find contentType = .error e) : ∃ e, s.output contentType = .error e := by
  cases hn : ContentType.normalize contentType with
  | error e => exact ⟨e, by simp [output, hn, bind, Except.bind]⟩
  | ok key => exact ⟨e, by simp [output, hn, Encoders.output, h, bind, Except.bind]⟩

theorem output_eq (s : Serializer) (contentType : String) :
    s.output contentType = s.encoders.output contentType := by
  rw [output, Encoders.output, Registry.find]
  cases ContentType.normalize contentType <;> rfl

theorem send_of_output_error {s : Serializer} {contentType : String} {e : Error}
    (ho : s.output contentType = .error e) (a : α) (payloadType? : α → Option String)
    (act : WriteM (Result Unit × α)) :
    s.send contentType a payloadType? act = ⟨.error e, a, []⟩ := by
  rw [send, ho]

theorem send_of_error {s : Serializer} {contentType : String} {o o' : Output}
    (ho : s.output contentType = .ok o) {act : WriteM (Result Unit × α)} {b : α} {e : Error}
    (h : act.run o = ((.error e, b), o')) (a : α) (payloadType? : α → Option String) :
    s.send contentType a payloadType? act = ⟨.error e, b, o'.log⟩ := by
  rw [send, ho]
  simp only [h]

/-- The bytes of a payload are those of a new one that is written and taken out. -/
theorem map_bytes_send {s : Serializer} {contentType : String} {o o' : Output}
    (ho : s.output contentType = .ok o) {act : WriteM (Result Unit × α)} {r : Result Unit} {b : α}
    (h : act.run o = ((r, b), o')) (a : α) (payloadType? : α → Option String) :
    (s.send contentType a payloadType? act).result.map (·.bytes) =
      r.bind fun _ => (Output.finish.run o').1 := by
  cases r with
  | error e =>
      rw [send_of_error ho h]
      rfl
  | ok _ =>
      simp only [send, ho, h]
      split
      · rename_i hfinish
        rw [Except.bind, hfinish]
        rfl
      · rename_i hfinish
        rw [Except.bind, hfinish]
        rfl

/-- A payload comes of writing that ends well. -/
theorem exists_of_send_ok {s : Serializer} {contentType : String} {o : Output} {p : Payload}
    (ho : s.output contentType = .ok o) {act : WriteM (Result Unit × α)} {a : α}
    {payloadType? : α → Option String}
    (h : (s.send contentType a payloadType? act).result = .ok p) :
    ∃ b o', act.run o = ((.ok (), b), o') := by
  obtain ⟨result, b, o', hrun⟩ : ∃ result b o', act.run o = ((result, b), o') := ⟨_, _, _, rfl⟩
  cases result with
  | ok _ => exact ⟨b, o', hrun⟩
  | error e =>
      rw [send_of_error ho hrun] at h
      cases h

/-- Taking the payload out does nothing to the model. -/
theorem model_send_of_ok {s : Serializer} {contentType : String} {o o' : Output}
    (ho : s.output contentType = .ok o) {act : WriteM (Result Unit × α)} {b : α}
    (h : act.run o = ((.ok (), b), o')) (a : α) (payloadType? : α → Option String) :
    (s.send contentType a payloadType? act).model = b := by
  rw [send, ho]
  simp only [h]
  split <;> rfl

/-- A value that can be put into an empty document is the whole payload. -/
theorem send_of_puts {s : Serializer} {contentType : String} {layers : List Layer}
    (ho : s.output contentType = .ok ⟨.json {}, layers, []⟩)
    {act : WriteM (Result Unit × α)} {b : α} {v : Json} (h : WriteM.Puts layers act none b v)
    (a : α) (payloadType? : α → Option String) :
    s.send contentType a payloadType? act =
      ⟨.ok ⟨(payloadType? b).getD ContentType.json, Bytes.ofString v.text⟩, b, []⟩ := by
  have hrun : act.run ⟨.json {}, layers, []⟩ =
      ((.ok (), b), ⟨.json { root := some v }, layers, []⟩) := h {} _ [] rfl
  rw [send, ho]
  simp only [hrun]
  rfl

end Serializer

end Marshal
