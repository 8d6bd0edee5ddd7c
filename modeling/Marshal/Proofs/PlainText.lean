import Marshal.Proofs.Json.Kind
import Marshal.Proofs.Json.Node
import Marshal.Proofs.Receiving

/-!
Scalars in payloads of plain text. A payload holds the text of one scalar and nothing else, and has
to hold something; a string in quotes loses them when it is read.
-/

namespace Marshal

namespace Kind

/-- The text that a scalar is written as where it stands alone. -/
def line : (k : Kind) → k.Carrier → String
  | .string, s => s
  | .bool, b => boolText b
  | .byte, n => intText n.toNat
  | .sbyte, n => intText n.toInt
  | .int, n => intText n.toInt
  | .long, n => intText n.toInt
  | .float, x => x.text .plain
  | .double, x => x.text .plain
  | .decimal, x => x.text
  | .guid, g => g.text
  | .date, d => d.text
  | .time, t => t.text
  | .dateTime, t => String.ofList (Rfc3339.chars t)
  | .timeSpan, d => d.text
  | .bytes, b => Base64.encode b

def Same : (k : Kind) → k.Carrier → k.Carrier → Prop
  | .decimal, x, y => x.units = y.units
  | _, v, w => v = w

/-- Writes a scalar to a payload of plain text and reads it from there. -/
def throughText (contentType : String) (k : Kind) (v : k.Carrier) :
    Result (Option k.Carrier) := do
  let (written, d) := Draft.run [k.call none (some v)] ({} : TextDraft)
  written
  let content ← (Draft.finish d).1
  let r ← Decoders.stock.root contentType content
  r.node.read? k

def Quoted (s : String) : Prop :=
  2 ≤ s.length ∧ s.toList.head? = some '"' ∧ s.toList.getLast? = some '"'

/-- The scalars that come back from plain text. Nothing is said of the floating point ones. -/
def Lasts : (k : Kind) → k.Carrier → Prop
  | .string, s => s ≠ "" ∧ ¬ Quoted s
  | .float, _ => False
  | .double, _ => False
  | .dateTime, t => ∃ s, Rfc3339.format t = .ok s
  | .timeSpan, d => d.seconds ≠ -(secondsLimit : Int)
  | .bytes, b => b ≠ []
  | _, _ => True

end Kind


theorem Bytes.ofString_eq_nil_iff {s : String} : Bytes.ofString s = [] ↔ s = "" := by
  constructor
  · intro h
    have htext := Bytes.text?_ofString s
    rw [h, ← Bytes.ofString_empty, Bytes.text?_ofString] at htext
    exact (Option.some.inj htext).symm
  · rintro rfl
    exact Bytes.ofString_empty

/-! ### Quotes -/

namespace Decoder

theorem unquoted_of_head {s : String} (h : s.toList.head? ≠ some '"') : unquoted s = s := by
  rw [unquoted]
  split
  · next cs hs =>
      rw [hs] at h
      exact absurd rfl h
  · rfl

/-- Only a string that is quoted at both ends is taken for another one. -/
theorem unquoted_eq_self_iff {s : String} : unquoted s = s ↔ ¬ Kind.Quoted s := by
  by_cases hhead : s.toList.head? = some '"'
  · obtain ⟨cs, hs⟩ := List.head?_eq_some_iff.mp hhead
    rw [Kind.Quoted, ← String.length_toList, unquoted, hs]
    cases hlast : cs.getLast? with
    | none => simp [List.getLast?_eq_none_iff.mp hlast]
    | some c =>
        obtain ⟨inner, rfl⟩ := List.getLast?_eq_some_iff.mp hlast
        have hwhole : ('"' :: (inner ++ [c])).getLast? = some c := by
          rw [← List.cons_append, List.getLast?_concat]
        have hshort : String.ofList inner ≠ s := by
          rintro rfl
          have hlength := congrArg List.length hs
          simp only [String.toList_ofList, List.length_cons, List.length_append] at hlength
          omega
        rw [hwhole]
        by_cases hc : c = '"' <;> simp [hc, hshort]
  · simp [unquoted_of_head hhead, Kind.Quoted, hhead]

end Decoder

def Bare (cs : List Char) : Prop :=
  cs.head? ≠ some '"'

theorem bare_nil : Bare [] :=
  (Option.some_ne_none '"').symm

theorem bare_cons {c : Char} {cs : List Char} (h : c ≠ '"') : Bare (c :: cs) :=
  fun hc => h (Option.some.inj hc)

theorem bare_append {a : List Char} (hne : a ≠ []) (h : '"' ∉ a) (b : List Char) :
    Bare (a ++ b) := by
  cases a with
  | nil => exact absurd rfl hne
  | cons c a => exact bare_cons fun hc => h (hc ▸ List.mem_cons_self)

theorem bare_minus {p : Prop} [Decidable p] {cs : List Char} (h : Bare cs) :
    Bare ((if p then ['-'] else []) ++ cs) := by
  split
  · exact bare_cons (by decide)
  · exact h

theorem quote_not_mem_of_isDigit {cs : List Char} (h : ∀ c ∈ cs, c.isDigit = true) : '"' ∉ cs :=
  fun hc => absurd (h _ hc) (by decide)

theorem bare_natChars (n : Nat) : Bare (natChars n) := by
  rw [← List.append_nil (natChars n)]
  exact bare_append (natChars_ne_nil n)
    (quote_not_mem_of_isDigit fun _ => isDigit_of_mem_natChars) []

theorem bare_paddedChars (width n : Nat) (cs : List Char) : Bare (paddedChars width n ++ cs) :=
  bare_append (by simp [paddedChars, natChars_ne_nil])
    (quote_not_mem_of_isDigit fun _ => isDigit_of_mem_paddedChars) cs

theorem bare_intChars (n : Int) : Bare (intChars n) := by
  rw [intChars]
  split
  · exact bare_cons (by decide)
  · exact bare_natChars _

theorem Decimal.bare_chars (d : Decimal) : Bare d.chars := by
  obtain ⟨c, cs, hbody, hdigit⟩ := d.head_bodyChars
  rw [Decimal.chars_eq, hbody]
  exact bare_minus (bare_cons fun hc => absurd (hc ▸ hdigit) (by decide))

theorem Guid.quote_not_mem_hexRow (n v : Nat) : '"' ∉ Guid.hexRow n v := by
  induction n generalizing v with
  | zero => exact List.not_mem_nil
  | succ n ih =>
      rw [Guid.hexRow, List.mem_append, List.mem_singleton, not_or]
      refine ⟨ih _, fun hdigit => ?_⟩
      have hvalue := hexValue?_hexDigit v
      rw [← hdigit] at hvalue
      cases hvalue

theorem Guid.bare_chars (g : Guid) : Bare (Guid.hyphenate g.digits) := by
  have hne : g.digits.take 8 ≠ [] := List.ne_nil_of_length_pos (by simp)
  simp only [Guid.hyphenate, List.append_assoc]
  exact bare_append hne (fun h => Guid.quote_not_mem_hexRow _ _ (List.mem_of_mem_take h)) _

theorem Date.bare_chars (d : Date) (cs : List Char) : Bare (d.chars ++ cs) := by
  have hyear : Bare (paddedChars 4 d.year.natAbs ++
      ('-' :: paddedChars 2 d.month ++ '-' :: paddedChars 2 d.day ++ cs)) := bare_paddedChars 4 _ _
  simp only [Date.chars, Date.yearChars, List.append_assoc] at hyear ⊢
  exact bare_minus hyear

theorem Clock.bare_chars (t : Clock) : Bare t.chars := by
  rw [Clock.chars_eq, Clock.secondChars, List.append_assoc, List.append_assoc]
  exact bare_paddedChars 2 _ _

theorem Duration.bare_chars (d : Duration) : Bare d.chars := by
  rw [Duration.chars]
  split
  · exact bare_cons (by decide)
  · rw [List.append_assoc]
    exact bare_minus (bare_cons (by decide))

theorem Base64.bare_chars (b : Bytes) : Bare (Base64.encodeChars b) := by
  have hdigit (n : Nat) : Base64.digit n ≠ '"' := by
    have : ∀ k : Fin 64, Base64.digit k ≠ '"' := by decide +kernel
    have h := this ⟨n % 64, Nat.mod_lt _ (by decide)⟩
    simpa [Base64.digit] using h
  rcases b with _ | ⟨a, _ | ⟨b, _ | ⟨c, rest⟩⟩⟩
  · exact bare_nil
  all_goals exact bare_cons (hdigit _)

namespace Kind

variable {k : Kind} {v : k.Carrier}

/-! ### Writing -/

/-- The call that writes a scalar puts its text on a line. -/
theorem line_of_call {c : Call} (h : k.call none (some v) = .ok c) :
    c.lineText? = some (some (k.line v)) ∧ c.key? = none := by
  -- Integers of all widths go out as 64 bits, and none of them is cut.
  cases k with
  | byte =>
      have hint : (Int64.ofNat (UInt8.toNat v)).toInt = UInt8.toNat v :=
        Int64.toInt_ofNat_of_lt (Nat.lt_trans (UInt8.toNat_lt v) (by decide))
      cases h
      simp [Call.lineText?, Call.key?, line, hint]
  | sbyte | int =>
      cases h
      simp [Call.lineText?, Call.key?, line]
  | dateTime =>
      obtain ⟨s, hs, rfl⟩ := exists_of_map_ok h
      obtain ⟨-, rfl⟩ := DateTime.wireText_eq_ok_iff.mp hs
      exact ⟨rfl, rfl⟩
  | _ =>
      cases h
      exact ⟨rfl, rfl⟩

theorem exists_call (h : k.Survives v) : ∃ c, k.call none (some v) = .ok c := by
  cases k with
  | dateTime =>
      refine ⟨.string none (some (String.ofList (Rfc3339.chars v))), ?_⟩
      rw [call, DateTime.wireText_eq_ok_iff.mpr ⟨h, rfl⟩]
      rfl
  | _ => exact ⟨_, rfl⟩

/-! ### Reading -/

theorem ofText_of_solid (hk : k ≠ .string) {cs : List Char} (hsolid : Text.Solid cs)
    {w : k.Carrier} (h : k.ofTrimmed? (String.ofList cs) = some w) (path : String) :
    k.ofText path (String.ofList cs) = .ok w :=
  ofText_of_ofTrimmed? hk (by rwa [Text.trim_ofList_of_solid hsolid]) path

/-- A scalar comes back from its own text. -/
theorem ofText_line (h : k.Survives v) (path : String) :
    ∃ w, k.ofText path (k.line v) = .ok w ∧ k.Same v w := by
  cases k with
  | string => exact ⟨v, rfl, rfl⟩
  | bool => cases v <;> exact ⟨_, rfl, rfl⟩
  | byte =>
      have hlt := UInt8.toNat_lt v
      have hchars : intChars (UInt8.toNat v) = natChars (UInt8.toNat v) := by
        rw [intChars, if_neg (by omega), Int.natAbs_natCast]
      have hread : Kind.byte.ofTrimmed? (String.ofList (intChars (UInt8.toNat v))) = some v := by
        rw [ofTrimmed?, String.toList_ofList, hchars, readUInt8?, readNat?_natChars,
          Option.bind_some, toUInt8?, if_pos (by omega), Int.toNat_natCast, UInt8.ofNat_toNat]
      exact ⟨v, ofText_of_solid (by decide) (solid_intChars _) hread path, rfl⟩
  | sbyte =>
      have hlo := Int8.le_toInt v
      have hhi := Int8.toInt_lt v
      have hread : Kind.sbyte.ofTrimmed? (String.ofList (intChars (Int8.toInt v))) = some v := by
        rw [ofTrimmed?, String.toList_ofList, readInt8?, readInt?_intChars, Option.bind_some,
          toInt8?, if_pos (by omega), Int8.ofInt_toInt]
      exact ⟨v, ofText_of_solid (by decide) (solid_intChars _) hread path, rfl⟩
  | int =>
      have hlo := Int32.le_toInt v
      have hhi := Int32.toInt_lt v
      have hread : Kind.int.ofTrimmed? (String.ofList (intChars (Int32.toInt v))) = some v := by
        rw [ofTrimmed?, String.toList_ofList, readInt32?, readInt?_intChars, Option.bind_some,
          toInt32?, if_pos (by omega), Int32.ofInt_toInt]
      exact ⟨v, ofText_of_solid (by decide) (solid_intChars _) hread path, rfl⟩
  | long =>
      have hread : Kind.long.ofTrimmed? (String.ofList (intChars (Int64.toInt v))) = some v := by
        rw [ofTrimmed?, String.toList_ofList, readInt64?, readInt?_intChars, Option.bind_some,
          toInt64?_toInt]
      exact ⟨v, ofText_of_solid (by decide) (solid_intChars _) hread path, rfl⟩
  | float => exact h.elim
  | double => exact h.elim
  | decimal =>
      obtain ⟨w, hw, hunits⟩ := Decimal.exists_ofChars?_chars v
      have hread : Kind.decimal.ofTrimmed? (String.ofList (Decimal.chars v)) = some w := by
        rw [ofTrimmed?, String.toList_ofList, hw]
      exact ⟨w, ofText_of_solid (by decide) (Decimal.solid_chars v) hread path, hunits.symm⟩
  | guid =>
      have hread : Kind.guid.ofTrimmed? (String.ofList (Guid.hyphenate (Guid.digits v))) = some v :=
        Guid.ofString?_text v
      exact ⟨v, ofText_of_solid (by decide) (Guid.solid_hyphenate v) hread path, rfl⟩
  | date =>
      have hread : Kind.date.ofTrimmed? (String.ofList (Date.chars v)) = some v :=
        Date.ofString?_text v
      exact ⟨v, ofText_of_solid (by decide) (Date.solid_chars v) hread path, rfl⟩
  | time =>
      have hread : Kind.time.ofTrimmed? (String.ofList (Clock.chars v)) = some v :=
        Clock.ofString?_text v
      exact ⟨v, ofText_of_solid (by decide) (Clock.solid_chars v) hread path, rfl⟩
  | dateTime =>
      have hread : Kind.dateTime.ofTrimmed? (String.ofList (Rfc3339.chars v)) = some v :=
        DateTime.HasText.ofString?_chars h
      exact ⟨v, ofText_of_solid (by decide) (Rfc3339.solid_chars v) hread path, rfl⟩
  | timeSpan =>
      have hread : Kind.timeSpan.ofTrimmed? (String.ofList (Duration.chars v)) = some v :=
        Duration.ofString?_text h
      exact ⟨v, ofText_of_solid (by decide) (Duration.solid_chars v) hread path, rfl⟩
  | bytes =>
      have hread : Kind.bytes.ofTrimmed? (String.ofList (Base64.encodeChars v)) = some v :=
        Base64.decode?_encode v
      exact ⟨v, ofText_of_solid (by decide) (Base64.solid_encodeChars v) hread path, rfl⟩

/-- Only strings may begin with a quote. -/
theorem bare_line (hk : k ≠ .string) (h : k.Survives v) : Bare (k.line v).toList := by
  cases k with
  | string => exact absurd rfl hk
  | bool => cases v <;> exact bare_cons (by decide)
  | byte | sbyte | int | long =>
      rw [line, intText, String.toList_ofList]
      exact bare_intChars _
  | float => exact h.elim
  | double => exact h.elim
  | decimal =>
      rw [line, Decimal.text, String.toList_ofList]
      exact Decimal.bare_chars v
  | guid =>
      rw [line, Guid.text, String.toList_ofList]
      exact Guid.bare_chars v
  | date =>
      have hbare := Date.bare_chars v []
      rw [List.append_nil] at hbare
      rwa [line, Date.text, String.toList_ofList]
  | time =>
      rw [line, Clock.text, String.toList_ofList]
      exact Clock.bare_chars v
  | dateTime =>
      rw [line, String.toList_ofList, Rfc3339.chars, List.append_assoc]
      exact Date.bare_chars _ _
  | timeSpan =>
      rw [line, Duration.text, String.toList_ofList]
      exact Duration.bare_chars v
  | bytes =>
      rw [line, Base64.encode, String.toList_ofList]
      exact Base64.bare_chars v

/-- Only strings and byte strings may have no text. -/
theorem line_ne_empty (hstring : k ≠ .string) (hbytes : k ≠ .bytes) (h : k.Survives v) :
    k.line v ≠ "" := by
  intro hempty
  obtain ⟨w, hread, -⟩ := ofText_line h ""
  have htrimmed := ofTrimmed?_of_ofText hstring hread
  rw [hempty] at htrimmed
  cases k with
  | string => exact absurd rfl hstring
  | bytes => exact absurd rfl hbytes
  | float => exact h.elim
  | double => exact h.elim
  | _ => cases htrimmed

/-! ### Payloads -/

section Payloads

variable {contentType key : String}

theorem throughText_of_call (hc : Decoders.stock.find contentType = .ok (key, .text)) {c : Call}
    (h : k.call none (some v) = .ok c) : k.throughText contentType v =
      if k.line v = "" then .error (.invalidArgument .emptyContent)
      else (k.ofText "" (Decoder.unquoted (k.line v))).map some := by
  obtain ⟨htext, hkey⟩ := line_of_call h
  have hrun : Draft.run [k.call none (some v)] ({} : TextDraft) =
      (.ok (), { text := some (k.line v) }) := by
    simp [Draft.run, h, Draft.call, TextDraft.call, htext, hkey, TextDraft.put]
  simp only [throughText, hrun, Draft.finish, TextDraft.finish, Decoders.root, hc, bind,
    Except.bind, List.isEmpty_iff, Bytes.ofString_eq_nil_iff]
  split_ifs with hempty
  · rfl
  · simp only [Decoder.root, Decoder.text, Decoder.Format.node, Bytes.text?_ofString, Except.map,
      Node.read?, ofText?]

theorem Lasts.survives (h : k.Lasts v) : k.Survives v := by
  cases k with
  | dateTime =>
      obtain ⟨s, hs⟩ := h
      exact DateTime.hasText_of_format hs
  | float => exact h
  | double => exact h
  | timeSpan => exact h
  | _ => trivial

theorem Lasts.line_ne_empty (h : k.Lasts v) : k.line v ≠ "" := by
  by_cases hstring : k = .string
  · subst hstring
    exact h.1
  · by_cases hbytes : k = .bytes
    · subst hbytes
      intro hempty
      have hdecode := Base64.decode?_encode v
      rw [show Base64.encode v = "" from hempty] at hdecode
      exact h (Option.some.inj hdecode).symm
    · exact Kind.line_ne_empty hstring hbytes h.survives

theorem Lasts.unquoted_line (h : k.Lasts v) : Decoder.unquoted (k.line v) = k.line v := by
  by_cases hstring : k = .string
  · subst hstring
    exact Decoder.unquoted_eq_self_iff.mpr h.2
  · exact Decoder.unquoted_of_head (bare_line hstring h.survives)

theorem Lasts.throughText (hc : Decoders.stock.find contentType = .ok (key, .text))
    (h : k.Lasts v) : ∃ w, k.throughText contentType v = .ok (some w) ∧ k.Same v w := by
  obtain ⟨c, hcall⟩ := exists_call h.survives
  obtain ⟨w, hread, hsame⟩ := ofText_line h.survives ""
  refine ⟨w, ?_, hsame⟩
  rw [throughText_of_call hc hcall, if_neg h.line_ne_empty, h.unquoted_line, hread]
  rfl

/-- What is read of a payload is read of a text that is not empty. -/
theorem ofText_of_throughText (hc : Decoders.stock.find contentType = .ok (key, .text))
    {w : k.Carrier} (h : k.throughText contentType v = .ok (some w)) :
    (∃ c, k.call none (some v) = .ok c) ∧ k.line v ≠ "" ∧
      k.ofText "" (Decoder.unquoted (k.line v)) = .ok w := by
  cases hcall : k.call none (some v) with
  | error e => simp [Kind.throughText, Draft.run, hcall, bind, Except.bind] at h
  | ok c =>
      rw [throughText_of_call hc hcall] at h
      split_ifs at h with hempty
      obtain ⟨x, hx, heq⟩ := exists_of_map_ok h
      exact ⟨⟨c, rfl⟩, hempty, by rw [hx, Option.some.inj heq]⟩

theorem lasts_of_throughText (hc : Decoders.stock.find contentType = .ok (key, .text))
    (hfloat : k ≠ .float) (hdouble : k ≠ .double) {w : k.Carrier}
    (h : k.throughText contentType v = .ok (some w)) (hsame : k.Same v w) : k.Lasts v := by
  obtain ⟨⟨c, hcall⟩, hempty, hread⟩ := ofText_of_throughText hc h
  cases k with
  | float => exact absurd rfl hfloat
  | double => exact absurd rfl hdouble
  | string =>
      refine ⟨hempty, Decoder.unquoted_eq_self_iff.mp ?_⟩
      exact (Except.ok.inj hread).trans hsame.symm
  | dateTime =>
      obtain ⟨s, hs, -⟩ := exists_of_map_ok hcall
      exact ⟨_, (DateTime.wireText_eq_ok_iff.mp hs).1.format_eq⟩
  | timeSpan =>
      obtain rfl : v = w := hsame
      exact Duration.seconds_ne_of_ofString? (ofTrimmed?_of_ofText (by decide) hread)
  | bytes =>
      rintro rfl
      exact hempty rfl
  | _ => trivial

/-- A scalar comes back from a payload of plain text if it has a text at all, and this is not empty
and, for a string, not quoted. Nothing is said of the floating point ones. -/
theorem throughText_iff (hc : Decoders.stock.find contentType = .ok (key, .text))
    (hfloat : k ≠ .float) (hdouble : k ≠ .double) :
    (∃ w, k.throughText contentType v = .ok (some w) ∧ k.Same v w) ↔ k.Lasts v := by
  constructor
  · rintro ⟨w, hread, hsame⟩
    exact lasts_of_throughText hc hfloat hdouble hread hsame
  · exact Lasts.throughText hc

end Payloads

/-- A quote within a string does no harm, even at its end. -/
theorem throughText_iff_inch :
    Decoders.stock.find "Text/Plain; charset=utf-8" = .ok (ContentType.plainText, .text) ∧
    Kind.string ≠ .float ∧ Kind.string ≠ .double ∧ Kind.Lasts .string "5 x 6\"" ∧
    ∃ w, Kind.throughText "Text/Plain; charset=utf-8" .string "5 x 6\"" = .ok (some w) ∧
      Kind.Same .string "5 x 6\"" w := by
  have hc : Decoders.stock.find "Text/Plain; charset=utf-8" =
      .ok (ContentType.plainText, .text) := rfl
  have hlasts : Kind.Lasts .string "5 x 6\"" := by
    refine ⟨by decide, fun hquoted => ?_⟩
    exact absurd hquoted.2.1 (by decide)
  exact ⟨hc, by decide, by decide, hlasts,
    (throughText_iff hc (by decide) (by decide)).mpr hlasts⟩

end Kind

end Marshal
