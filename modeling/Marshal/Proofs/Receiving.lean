import Marshal.Proofs.Sending

/-!
From a JSON payload to the root node that is read.
-/

namespace Marshal

namespace Decoders

theorem get?_of_encoders {key : String}
    (h : Encoders.stock.entries.get? key = some .json) : stock.entries.get? key = some .json := by
  have hkey : ∀ p ∈ Encoders.stock.entries, p.2.format = .json → p.1 = ContentType.json := by decide
  obtain rfl : key = ContentType.json := hkey _ (Members.mem_of_get? h) rfl
  rfl

theorem get?_none_of_encoders {key : String} (h : Encoders.stock.entries.get? key = none) :
    stock.entries.get? key = none := by
  have hkeys : ∀ k ∈ stock.entries.keys, k ∈ Encoders.stock.entries.keys := by decide
  rw [Members.get?_eq_none_iff] at h ⊢
  exact fun hkey => h (hkeys key hkey)

theorem findKey?_of_encoders {normal key : String}
    (h : Encoders.stock.findKey? normal = some (key, .json)) :
    stock.findKey? normal = some (key, .json) := by
  rw [Registry.findKey?] at h ⊢
  cases hget : Encoders.stock.entries.get? normal with
  | some e =>
      rw [hget] at h
      obtain ⟨rfl, rfl⟩ := Prod.mk.inj (Option.some.inj h)
      rw [get?_of_encoders hget]
  | none =>
      -- What has no encoder has no decoder, so both searches go on to the same cleaned key.
      rw [hget] at h
      simp only [Option.bind_eq_bind, Option.bind_eq_some_iff] at h
      obtain ⟨cleaned, hcleaned, e, he, hfound⟩ := h
      obtain ⟨rfl, rfl⟩ := Prod.mk.inj (Option.some.inj hfound)
      simp [get?_none_of_encoders hget, hcleaned, get?_of_encoders he]

/-- A content type that is written as JSON is read as JSON. -/
theorem find_of_encoders {contentType key : String}
    (h : Encoders.stock.find contentType = .ok (key, .json)) :
    stock.find contentType = .ok (key, .json) := by
  cases hn : ContentType.normalize contentType with
  | error e => simp [Registry.find, hn, bind, Except.bind] at h
  | ok normal =>
      cases hkey : Encoders.stock.findKey? normal with
      | none => simp [Registry.find, hn, hkey, bind, Except.bind] at h
      | some found =>
          simp only [Registry.find, hn, hkey, bind, Except.bind, pure, Except.pure,
            Except.ok.injEq] at h
          subst h
          simp only [Registry.find, hn, findKey?_of_encoders hkey, bind, Except.bind, pure,
            Except.pure]

theorem find_stock_json : stock.find ContentType.json = .ok (ContentType.json, .json) := rfl

end Decoders

theorem Decoder.iterate_wrap (l : Layer) (n : Nat) (d : Decoder) :
    (Decoder.wrap l)^[n] d = { d with layers := List.replicate n l ++ d.layers } := by
  induction n with
  | zero => rfl
  | succ n ih => rw [Function.iterate_succ_apply', ih, wrap, List.replicate_succ, List.cons_append]

theorem Decoders.find_wrapped {n maxDepth : Nat} {r : Decoders} {contentType key : String}
    (h : r.find contentType = .ok (key, .json maxDepth)) :
    ((Registry.mapAll (Decoder.wrap .changes))^[n] r).find contentType =
      .ok (key, { Decoder.json maxDepth with layers := List.replicate n .changes }) := by
  rw [Registry.find_iterate_mapAll, h]
  simp [Except.map, Decoder.iterate_wrap, Decoder.json]

/-- Without a mapping there is no choice of a factory. -/
theorem Discriminators.resolve_of_none {ι : Type} [DecidableEq ι] {M : ι → Type}
    {d : Discriminators M} {b : ι} (h : d.mapping? b = none) (n : Node) (f : Factory (M b)) :
    d.resolve b n f = f := by
  simp [resolve, match?, h]

namespace Serializer

variable {s : Serializer} {contentType key : String}

/-- The root of a document is its value at the top; what is no document has none. -/
theorem root_ok_iff {d : Decoder} {maxDepth : Nat}
    (hf : s.decoders.find contentType = .ok (key, d)) (hd : d.format = .json maxDepth)
    {content : Bytes} {r : Root} :
    s.root contentType content = .ok r ↔
      ∃ v, content.text?.bind Json.ofString? = some v ∧
        r = ⟨.json { value := v, maxDepth }, d.layers⟩ := by
  obtain ⟨_, hn⟩ := Registry.normalize_of_find hf
  simp only [root, hn, Decoders.root, hf, Decoder.root, hd, Decoder.Format.node, bind, Except.bind]
  cases content with
  | nil =>
      have hempty : (Bytes.text? []).bind Json.ofString? = none := rfl
      simp [hempty]
  | cons b bs =>
      cases Option.bind (Bytes.text? (b :: bs)) Json.ofString? with
      | none => simp [Except.map]
      | some v => simp [Except.map, eq_comm]

theorem root_of_text {d : Decoder} {maxDepth : Nat}
    (hf : s.decoders.find contentType = .ok (key, d)) (hd : d.format = .json maxDepth)
    {text : String} {v : Json} (ht : Json.ofString? text = some v) :
    s.root contentType (Bytes.ofString text) = .ok ⟨.json { value := v, maxDepth }, d.layers⟩ :=
  (root_ok_iff hf hd).mpr ⟨v, by rw [Bytes.text?_ofString, Option.bind_some, ht], rfl⟩

theorem root_of_find (hf : s.decoders.find contentType = .ok (key, .json)) {text : String}
    {v : Json} (ht : Json.ofString? text = some v) :
    s.root contentType (Bytes.ofString text) = .ok ⟨.json { value := v }, []⟩ :=
  root_of_text hf rfl ht

/-- The root of a form is all of it; only nothing at all is no form. -/
theorem root_of_form {d : Decoder} (hf : s.decoders.find contentType = .ok (key, d))
    (hd : d.format = .form) {content : Bytes} (hne : content ≠ []) :
    s.root contentType content = .ok ⟨.form (.ofContent content), d.layers⟩ := by
  obtain ⟨_, hn⟩ := Registry.normalize_of_find hf
  have hempty : content.isEmpty = false := by simpa using hne
  simp only [root, hn, Decoders.root, hempty, hf, Decoder.root, hd, Decoder.Format.node, bind,
    Except.bind, Except.map, Bool.false_eq_true, if_false]

end Serializer

end Marshal
