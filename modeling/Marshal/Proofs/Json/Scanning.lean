import Mathlib.Data.List.Basic
import Marshal.Json.Token

/-!
The tokens of the text that a value is written as. A text that is written is cut into the tokens of
its values, whatever comes after it.
-/

namespace Marshal

namespace Json

namespace Token

theorem scan?_cons (s : Scan) (c : Char) (cs : List Char) :
    scan? s (c :: cs) = (s.next? c).bind fun r => (scan? r.2 cs).map (r.1 ++ ·) := by
  rw [scan?]
  cases s.next? c with
  | none => rfl
  | some r => cases h : scan? r.2 cs <;> simp [h]

theorem scan?_of_next {s u : Scan} {c : Char} (h : s.next? c = some ([], u)) (cs : List Char) :
    scan? s (c :: cs) = scan? u cs := by
  rw [scan?_cons, h, Option.bind_some]
  cases scan? u cs <;> rfl

theorem scan?_of_next_token {s u : Scan} {c : Char} {t : Token}
    (h : s.next? c = some ([t], u)) (cs : List Char) :
    scan? s (c :: cs) = (scan? u cs).map (t :: ·) := by
  rw [scan?_cons, h, Option.bind_some]
  rfl

/-- The characters are cut into the tokens where `rest` comes after them. -/
def Cuts (cs : List Char) (ts : List Token) (rest : List Char) : Prop :=
  scan? .between (cs ++ rest) = (scan? .between rest).map (ts ++ ·)

theorem Cuts.append {cs cs' rest : List Char} {ts ts' : List Token} (h : Cuts cs ts (cs' ++ rest))
    (h' : Cuts cs' ts' rest) : Cuts (cs ++ cs') (ts ++ ts') rest := by
  rw [Cuts] at h h' ⊢
  rw [List.append_assoc, h, h', Option.map_map]
  congr 1
  funext us
  simp

theorem cuts_punctuation {c : Char} {t : Token} (h : start? c = some ([t], .between))
    (rest : List Char) : Cuts [c] [t] rest :=
  scan?_of_next_token (s := .between) h rest

/-! ### Words -/

def NoWord (cs : List Char) : Prop :=
  ∀ c rest, cs = c :: rest → isWordChar c = false

theorem start?_of_isWordChar {c : Char} (h : isWordChar c = true) :
    start? c = some ([], .word [c]) := by
  have hne : ∀ d : Char, isWordChar d = false → c ≠ d := by
    rintro d hd rfl
    rw [h] at hd
    cases hd
  have hspace : isSpace c = false := by
    simp [isSpace, hne ' ' rfl, hne '\t' rfl, hne '\n' rfl, hne '\r' rfl]
  simp [start?, hspace, h, hne '[' rfl, hne ']' rfl, hne '{' rfl, hne '}' rfl, hne ',' rfl,
    hne ':' rfl, hne '"' rfl]

theorem scan?_word {w : List Char} (hw : ∀ c ∈ w, isWordChar c = true) {rest : List Char}
    (hrest : NoWord rest) (got : List Char) :
    scan? (.word got) (w ++ rest) =
      (word? (got.reverse ++ w)).bind fun t => (scan? .between rest).map (t :: ·) := by
  induction w generalizing got with
  | nil =>
      rw [List.append_nil, List.nil_append]
      cases rest with
      | nil => cases h : word? got.reverse <;> simp [scan?, h]
      | cons c rest =>
          have hc := hrest c rest rfl
          rw [scan?_cons, scan?_cons, Scan.next?, Scan.next?, hc]
          cases word? got.reverse with
          | none => rfl
          | some t =>
              cases start? c with
              | none => rfl
              | some r => cases h : scan? r.2 rest <;> simp [h]
  | cons c w ih =>
      obtain ⟨hc, hw⟩ := List.forall_mem_cons.mp hw
      rw [List.cons_append, scan?_of_next (u := .word (c :: got)) (by rw [Scan.next?, if_pos hc]),
        ih hw]
      simp

theorem cuts_word {w : List Char} (hne : w ≠ []) (hw : ∀ c ∈ w, isWordChar c = true) {t : Token}
    (ht : word? w = some t) {rest : List Char} (hrest : NoWord rest) : Cuts w [t] rest := by
  obtain ⟨c, w, rfl⟩ := List.exists_cons_of_ne_nil hne
  obtain ⟨hc, hw⟩ := List.forall_mem_cons.mp hw
  have hstart : Scan.next? .between c = some ([], .word [c]) := start?_of_isWordChar hc
  rw [Cuts, List.cons_append, scan?_of_next hstart, scan?_word hw hrest]
  simp [ht]

/-! ### Strings -/

/-- A backslash and the letter that stands for a character. -/
theorem scan?_escaped {e c : Char} (he : e ≠ 'u') (hc : escaped? e = some c)
    (got rest : List Char) :
    scan? (.string got) ('\\' :: e :: rest) = scan? (.string (c :: got)) rest := by
  rw [scan?_of_next (u := .escape got) rfl, scan?_of_next (u := .string (c :: got))]
  rw [Scan.next?, if_neg he, hc, Option.map_some]

/-- A code unit that stands for a control character. -/
theorem scan?_unit {c : Char} (hc : c.toNat < 0x20) (got rest : List Char) :
    scan? (.string got)
      ('\\' :: 'u' :: '0' :: '0' :: hexDigit (c.toNat / 16) :: hexDigit c.toNat :: rest) =
      scan? (.string (c :: got)) rest := by
  have hvalue : c.toNat / 16 % 16 * 16 + c.toNat % 16 = c.toNat := by omega
  have hafter : afterUnit? got none c.toNat = some (.string (c :: got)) := by
    have hhigh : ¬ 0xD800 ≤ c.toNat := by omega
    have hlow : ¬ 0xDC00 ≤ c.toNat := by omega
    simp [afterUnit?, hhigh, hlow, Char.ofNat_toNat]
  rw [scan?_of_next (u := .escape got) rfl, scan?_of_next (u := .unit got none 0 0) rfl,
    scan?_of_next (u := .unit got none 1 0) rfl, scan?_of_next (u := .unit got none 2 0) rfl,
    scan?_of_next (u := .unit got none 3 (c.toNat / 16 % 16)),
    scan?_of_next (u := .string (c :: got))]
  · simp [Scan.next?, hexValue?_hexDigit, hvalue, hafter]
  · simp [Scan.next?, hexValue?_hexDigit]

theorem scan?_escapeChar (c : Char) (got rest : List Char) :
    scan? (.string got) (escapeChar c ++ rest) = scan? (.string (c :: got)) rest := by
  have hofNat : ∀ n, c.toNat = n → Char.ofNat n = c := fun n h => by rw [← h, Char.ofNat_toNat]
  unfold escapeChar
  split_ifs with hquote hslash hnewline hreturn htab hback hfeed hcontrol
  · exact scan?_escaped (by decide) (by rw [hquote]; rfl) got rest
  · exact scan?_escaped (by decide) (by rw [hslash]; rfl) got rest
  · exact scan?_escaped (by decide) (by rw [hnewline]; rfl) got rest
  · exact scan?_escaped (by decide) (by rw [hreturn]; rfl) got rest
  · exact scan?_escaped (by decide) (by rw [htab]; rfl) got rest
  · exact scan?_escaped (by decide) (by rw [← hofNat 8 hback]; rfl) got rest
  · exact scan?_escaped (by decide) (by rw [← hofNat 12 hfeed]; rfl) got rest
  · exact scan?_unit hcontrol got rest
  · refine scan?_of_next ?_ rest
    rw [Scan.next?, if_neg hquote, if_neg hslash, if_neg hcontrol]

theorem scan?_flatMap_escapeChar (cs got rest : List Char) :
    scan? (.string got) (cs.flatMap escapeChar ++ '"' :: rest) =
      (scan? .between rest).map (.scalar (.string (String.ofList (got.reverse ++ cs))) :: ·) := by
  induction cs generalizing got with
  | nil =>
      rw [List.append_nil, List.flatMap_nil, List.nil_append]
      exact scan?_of_next_token (by rw [Scan.next?, if_pos rfl]) rest
  | cons c cs ih =>
      rw [List.flatMap_cons, List.append_assoc, scan?_escapeChar, ih, List.reverse_cons,
        List.append_assoc, List.singleton_append]

theorem cuts_stringChars (s : String) (rest : List Char) :
    Cuts (stringChars s) [.scalar (.string s)] rest := by
  have hstart : Scan.next? .between '"' = some ([], .string []) := rfl
  rw [Cuts, stringChars, List.cons_append, List.cons_append, scan?_of_next hstart,
    List.append_assoc, List.singleton_append, scan?_flatMap_escapeChar, List.reverse_nil,
    List.nil_append, String.ofList_toList]
  rfl

end Token

/-! ### Values -/

structure IsNumber (t : String) : Prop where
  ne_nil : t.toList ≠ []
  chars : ∀ c ∈ t.toList, Token.isWordChar c = true
  word : Token.word? t.toList = some (.scalar (.number t))

mutual

def Spelled : Json → Prop
  | number t => IsNumber t
  | array items => SpelledItems items
  | object members => SpelledMembers members
  | _ => True

def SpelledItems : List Json → Prop
  | [] => True
  | v :: vs => v.Spelled ∧ SpelledItems vs

def SpelledMembers : List (String × Json) → Prop
  | [] => True
  | (_, v) :: ms => v.Spelled ∧ SpelledMembers ms

end

mutual

def tokens : Json → List Token
  | array [] => [.beginArray, .endArray]
  | array (v :: vs) => .beginArray :: (tokens v ++ itemTokens vs)
  | object [] => [.beginObject, .endObject]
  | object ((k, v) :: ms) =>
    .beginObject :: .scalar (.string k) :: .colon :: (tokens v ++ memberTokens ms)
  | v => [.scalar v]

def itemTokens : List Json → List Token
  | [] => [.endArray]
  | v :: vs => .comma :: (tokens v ++ itemTokens vs)

def memberTokens : List (String × Json) → List Token
  | [] => [.endObject]
  | (k, v) :: ms => .comma :: .scalar (.string k) :: .colon :: (tokens v ++ memberTokens ms)

end

namespace Token

theorem noWord_itemChars (vs : List Json) (rest : List Char) : NoWord (itemChars vs ++ rest) := by
  cases vs <;> rintro c _ h <;> cases h <;> rfl

theorem noWord_memberChars (ms : List (String × Json)) (rest : List Char) :
    NoWord (memberChars ms ++ rest) := by
  cases ms with
  | nil => rintro c _ h; cases h; rfl
  | cons m ms => obtain ⟨k, v⟩ := m; rintro c _ h; cases h; rfl

mutual

/-- The text of a value is cut into the tokens of the value, if no word goes on after it. -/
theorem cuts_chars : ∀ (v : Json), v.Spelled → ∀ rest, NoWord rest → Cuts v.chars v.tokens rest
  | null, _, _, hrest =>
      cuts_word (w := "null".toList) (by decide) (List.all_eq_true.mp rfl) rfl hrest
  | bool true, _, _, hrest =>
      cuts_word (w := "true".toList) (by decide) (List.all_eq_true.mp rfl) rfl hrest
  | bool false, _, _, hrest =>
      cuts_word (w := "false".toList) (by decide) (List.all_eq_true.mp rfl) rfl hrest
  | number t, h, _, hrest => cuts_word h.ne_nil h.chars h.word hrest
  | string s, _, rest, _ => cuts_stringChars s rest
  | array [], _, rest, _ =>
      (cuts_punctuation (c := '[') rfl _).append (cuts_punctuation (c := ']') rfl rest)
  | array (v :: vs), h, rest, _ =>
      (cuts_punctuation (c := '[') rfl _).append
        ((cuts_chars v h.1 _ (noWord_itemChars vs rest)).append (cuts_itemChars vs h.2 rest))
  | object [], _, rest, _ =>
      (cuts_punctuation (c := '{') rfl _).append (cuts_punctuation (c := '}') rfl rest)
  | object ((k, v) :: ms), h, rest, _ =>
      (cuts_punctuation (c := '{') rfl _).append
        (((cuts_stringChars k _).append ((cuts_punctuation (c := ':') rfl _).append
          (cuts_chars v h.1 _ (noWord_memberChars ms rest)))).append (cuts_memberChars ms h.2 rest))

theorem cuts_itemChars : ∀ (vs : List Json), SpelledItems vs → ∀ rest,
    Cuts (itemChars vs) (itemTokens vs) rest
  | [], _, rest => cuts_punctuation rfl rest
  | v :: vs, h, rest =>
      (cuts_punctuation (c := ',') rfl _).append
        ((cuts_chars v h.1 _ (noWord_itemChars vs rest)).append (cuts_itemChars vs h.2 rest))

theorem cuts_memberChars : ∀ (ms : List (String × Json)), SpelledMembers ms → ∀ rest,
    Cuts (memberChars ms) (memberTokens ms) rest
  | [], _, rest => cuts_punctuation rfl rest
  | (k, v) :: ms, h, rest =>
      (cuts_punctuation (c := ',') rfl _).append
        (((cuts_stringChars k _).append ((cuts_punctuation (c := ':') rfl _).append
          (cuts_chars v h.1 _ (noWord_memberChars ms rest)))).append (cuts_memberChars ms h.2 rest))

end

end Token

theorem tokens?_chars {v : Json} (h : v.Spelled) : tokens? v.chars = some v.tokens := by
  have hcuts := Token.cuts_chars v h [] (by rintro c rest h; cases h)
  rw [Token.Cuts, List.append_nil] at hcuts
  rw [tokens?, hcuts]
  simp [Token.scan?]

end Json

end Marshal
