import Mathlib.Data.List.Basic
import Marshal.Draft.Multipart
import Marshal.Proofs.Bytes.Utf8
import Marshal.Proofs.Text.Split

/-!
A reader of multipart payloads, as any receiver has one, to compare the writer with: a delimiter
line, the lines of a header up to an empty one, the content up to the next delimiter, and so on to
the delimiter that closes the payload.
-/

namespace Marshal

namespace Bytes

def cut (d : Bytes) : Bytes → Option (Bytes × Bytes)
  | [] => if d.isEmpty then some ([], []) else none
  | b :: bs =>
    match (b :: bs).dropPrefix? d with
    | some rest => some ([], rest)
    | none => (cut d bs).map fun (before, after) => (b :: before, after)

theorem dropPrefix?_eq_some_iff {d bs rest : Bytes} :
    bs.dropPrefix? d = some rest ↔ bs = d ++ rest := by
  rw [List.dropPrefix?_eq_some_iff]
  constructor
  · rintro ⟨p, rfl, hp⟩
    rw [eq_of_beq hp]
  · rintro rfl
    exact ⟨d, rfl, beq_self_eq_true d⟩

theorem eq_append_of_cut {d bs before after : Bytes} (h : cut d bs = some (before, after)) :
    bs = before ++ (d ++ after) := by
  induction bs generalizing before with
  | nil =>
      rw [cut] at h
      split at h
      · simp_all
      · cases h
  | cons b bs ih =>
      rw [cut] at h
      split at h
      · rename_i rest hrest
        cases h
        show b :: bs = d ++ after
        exact dropPrefix?_eq_some_iff.mp hrest
      · obtain ⟨⟨a, c⟩, hcut, heq⟩ := Option.map_eq_some_iff.mp h
        cases heq
        rw [ih hcut]
        rfl

/-- A cut makes the rest shorter by what comes before it. -/
theorem length_of_cut {d bs before after : Bytes} (h : cut d bs = some (before, after)) :
    bs.length = before.length + d.length + after.length := by
  rw [eq_append_of_cut h]
  simp only [List.length_append]
  omega

theorem dropPrefix?_eq_none_iff {d bs : Bytes} : bs.dropPrefix? d = none ↔ ¬ d <+: bs := by
  constructor
  · rintro h ⟨rest, hrest⟩
    rw [dropPrefix?_eq_some_iff.mpr hrest.symm] at h
    cases h
  · intro h
    cases hd : bs.dropPrefix? d with
    | none => rfl
    | some rest => exact absurd ⟨rest, (dropPrefix?_eq_some_iff.mp hd).symm⟩ h

/-- A delimiter whose first byte does not come again in it is found where it first stands. -/
theorem cut_eq_some_iff {x : UInt8} {t bs before after : Bytes} (hx : x ∉ t) :
    cut (x :: t) bs = some (before, after) ↔
      bs = before ++ (x :: t ++ after) ∧ ¬ x :: t <:+: before := by
  constructor
  · intro h
    refine ⟨eq_append_of_cut h, ?_⟩
    induction bs generalizing before with
    | nil => cases h
    | cons b bs ih =>
        have heq := eq_append_of_cut h
        rw [cut] at h
        split at h
        · cases h
          simp
        · rename_i hprefix
          obtain ⟨⟨a, c⟩, hcut, hpair⟩ := Option.map_eq_some_iff.mp h
          cases hpair
          rw [List.infix_cons_iff, not_or]
          refine ⟨fun hp => dropPrefix?_eq_none_iff.mp hprefix ?_, ih hcut⟩
          rw [heq]
          exact hp.trans (List.prefix_append _ _)
  · rintro ⟨rfl, hnot⟩
    induction before with
    | nil =>
        have hdrop : (x :: (t ++ after)).dropPrefix? (x :: t) = some after :=
          dropPrefix?_eq_some_iff.mpr rfl
        show cut (x :: t) (x :: (t ++ after)) = _
        rw [cut, hdrop]
    | cons b before ih =>
        rw [List.infix_cons_iff, not_or] at hnot
        have hdrop : (b :: (before ++ (x :: t ++ after))).dropPrefix? (x :: t) = none := by
          refine dropPrefix?_eq_none_iff.mpr fun hp => ?_
          -- An occurrence at `b` ends within `before`, or has the `x` after `before` in its tail.
          rcases List.prefix_or_prefix_of_prefix hp (List.prefix_append (b :: before) _) with h | h
          · exact hnot.1 h
          · obtain ⟨s, hs⟩ := h
            cases s with
            | nil => exact hnot.1 ⟨[], by rw [List.append_nil, ← hs, List.append_nil]⟩
            | cons y s =>
                have hover : b :: before ++ y :: s <+: b :: before ++ (x :: t ++ after) := by
                  rw [hs]
                  exact hp
                rw [List.prefix_append_right_inj, List.cons_append, List.cons_prefix_cons] at hover
                obtain ⟨-, rfl⟩ := List.cons.inj hs
                exact hx (by simp [hover.1])
        rw [List.cons_append, cut, hdrop]
        simp only [ih hnot.2, Option.map_some]

/-- Strict reading takes only the bytes that spell the text. -/
theorem eq_ofString_of_text? {b : Bytes} {s : String} (h : b.text? = some s) : b = ofString s := by
  rw [text?, String.fromUTF8?] at h
  split at h
  · cases h
    rfl
  · cases h

end Bytes

namespace Multipart

open MultipartDraft (lineEnd)

theorem cut_lineEnd {bs line rest : Bytes} :
    Bytes.cut lineEnd bs = some (line, rest) ↔
      bs = line ++ (lineEnd ++ rest) ∧ ¬ lineEnd <:+: line :=
  Bytes.cut_eq_some_iff (x := 13) (t := [10]) (by decide)

/-! ### Headers -/

/-- A field in a line: a name and, after a colon and a blank, a value. -/
def field? (line : Bytes) : Option (String × String) := do
  let s ← line.text?
  match Text.cut ':' s.toList with
  | some (name, ' ' :: value) => some (String.ofList name, String.ofList value)
  | _ => none

def fieldLine (name value : String) : Bytes :=
  Bytes.ofString (name ++ ": " ++ value)

theorem toList_fieldLine (name value : String) :
    (name ++ ": " ++ value).toList = name.toList ++ ':' :: ' ' :: value.toList := by
  have hcolon : (": " : String).toList = [':', ' '] := rfl
  simp [String.toList_append, hcolon]

theorem fieldLine_ne_nil (name value : String) : fieldLine name value ≠ [] := by
  have hcolon : Bytes.ofString ": " = [58, 32] := rfl
  simp [fieldLine, Bytes.ofString_append, hcolon]

theorem fieldLine_inj {name v w : String} : fieldLine name v = fieldLine name w ↔ v = w := by
  refine ⟨fun h => ?_, fun h => h ▸ rfl⟩
  have htext := congrArg Bytes.text? h
  rw [fieldLine, fieldLine, Bytes.text?_ofString, Bytes.text?_ofString, Option.some.injEq,
    ← String.toList_inj, toList_fieldLine, toList_fieldLine, List.append_cancel_left_eq] at htext
  simpa [String.toList_inj] using htext

theorem field?_fieldLine {name : String} (h : ':' ∉ name.toList) (value : String) :
    field? (fieldLine name value) = some (name, value) := by
  rw [field?, fieldLine, Bytes.text?_ofString, Option.bind_eq_bind, Option.bind_some,
    toList_fieldLine, Text.cut_append_cons h]
  simp

theorem eq_fieldLine_of_field? {line : Bytes} {name value : String}
    (h : field? line = some (name, value)) : line = fieldLine name value := by
  obtain ⟨s, hs, h⟩ := Option.bind_eq_some_iff.mp h
  split at h
  · rename_i n v hcut
    cases h
    rw [Bytes.eq_ofString_of_text? hs, fieldLine]
    refine congrArg Bytes.ofString (String.toList_inj.mp ?_)
    rw [toList_fieldLine, Text.eq_append_of_cut hcut, String.toList_ofList, String.toList_ofList]
  · cases h

/-- The fields of a header, which ends with an empty line, and what comes after it. -/
def header? (bs : Bytes) : Option (List (String × String) × Bytes) :=
  match _hcut : Bytes.cut lineEnd bs with
  | none => none
  | some ([], rest) => some ([], rest)
  | some (b :: line, rest) => do
    let f ← field? (b :: line)
    let (fs, rest) ← header? rest
    return (f :: fs, rest)
termination_by bs.length
decreasing_by
  have hlength := Bytes.length_of_cut _hcut
  rw [List.length_cons] at hlength
  omega

def headerLines (fs : List (String × String)) : Bytes :=
  fs.flatMap (fun f => fieldLine f.1 f.2 ++ lineEnd) ++ lineEnd

theorem headerLines_cons (f : String × String) (fs : List (String × String)) (rest : Bytes) :
    headerLines (f :: fs) ++ rest = fieldLine f.1 f.2 ++ (lineEnd ++ (headerLines fs ++ rest)) := by
  simp [headerLines, List.append_assoc]

/-- Fields are read as they were put together, where none of their lines ends early. -/
theorem header?_headerLines {fs : List (String × String)}
    (h : ∀ f ∈ fs, ':' ∉ f.1.toList ∧ ¬ lineEnd <:+: fieldLine f.1 f.2) (rest : Bytes) :
    header? (headerLines fs ++ rest) = some (fs, rest) := by
  induction fs with
  | nil =>
      have hcut : Bytes.cut lineEnd (headerLines [] ++ rest) = some ([], rest) :=
        cut_lineEnd.mpr ⟨rfl, by simp [lineEnd]⟩
      rw [header?.eq_def]
      split <;> simp_all
  | cons f fs ih =>
      obtain ⟨⟨hname, hline⟩, hfs⟩ := List.forall_mem_cons.mp h
      have hfield := field?_fieldLine hname f.2
      have hne := fieldLine_ne_nil f.1 f.2
      rw [headerLines_cons]
      have hcut := cut_lineEnd.mpr
        ⟨rfl (a := fieldLine f.1 f.2 ++ (lineEnd ++ (headerLines fs ++ rest))), hline⟩
      rw [header?.eq_def]
      split <;> simp_all

/-- What is read as a header is the lines of its fields, and none of them has a line end in it. -/
theorem of_header? {bs rest : Bytes} {fs : List (String × String)}
    (h : header? bs = some (fs, rest)) :
    bs = headerLines fs ++ rest ∧ ∀ f ∈ fs, ¬ lineEnd <:+: fieldLine f.1 f.2 := by
  fun_induction header? bs generalizing fs rest with
  | case1 => cases h
  | case2 bs rest' hcut =>
      cases h
      exact ⟨(cut_lineEnd.mp hcut).1, List.forall_mem_nil _⟩
  | case3 bs b line rest' hcut ih =>
      obtain ⟨f, hf, h⟩ := Option.bind_eq_some_iff.mp h
      obtain ⟨⟨fs', r⟩, hfs, heq⟩ := Option.bind_eq_some_iff.mp h
      cases heq
      obtain ⟨hbs, hline⟩ := cut_lineEnd.mp hcut
      obtain ⟨hrest, hlines⟩ := ih hfs
      rw [eq_fieldLine_of_field? hf] at hbs hline
      refine ⟨?_, List.forall_mem_cons.mpr ⟨hline, hlines⟩⟩
      rw [hbs, headerLines_cons, ← hrest]

/-! ### The parameters of a field -/

/-- The name of a parameter, before its value: it comes after a semicolon and a blank, with an
equals sign. -/
def label? : List Char → Option String
  | ';' :: ' ' :: cs =>
    match Text.cut '=' cs with
    | some (name, []) => some (String.ofList name)
    | _ => none
  | _ => none

/-- The parameters in what stands between the quotes and in the quotes, by turns. -/
def parameters? : List (List Char) → Option (List (String × String))
  | [[]] => some []
  | label :: value :: rest => do
    let name ← label? label
    let ps ← parameters? rest
    return (name, String.ofList value) :: ps
  | _ => none

/-- The kind of a disposition and its parameters. A quoted value ends at the next quote. -/
def disposition? (s : String) : Option (String × List (String × String)) :=
  let kind := Text.upTo ';' s.toList
  (parameters? (Text.splitOn '"' (s.toList.drop kind.length))).map (String.ofList kind, ·)

/-- A parameter reads as the value in its quotes exactly if that has no quote itself. -/
theorem parameters?_quoted_iff {label value rest : List Char} {name : String}
    {ps : List (String × String)} (hlabel : '"' ∉ label) (hname : label? label = some name) :
    parameters? (Text.splitOn '"' (label ++ '"' :: (value ++ '"' :: rest))) =
        some ((name, String.ofList value) :: ps) ↔
      '"' ∉ value ∧ parameters? (Text.splitOn '"' rest) = some ps := by
  rw [Text.splitOn_append_cons '"' hlabel]
  by_cases hvalue : '"' ∈ value
  · simp only [hvalue, not_true_eq_false, false_and, iff_false]
    intro h
    obtain ⟨v, w, rfl, hv⟩ := List.eq_append_cons_of_mem hvalue
    rw [List.append_assoc, List.cons_append, Text.splitOn_append_cons '"' hv, parameters?,
      hname] at h
    simp only [Option.bind_eq_bind, Option.bind_some, Option.bind_eq_some_iff] at h
    obtain ⟨ps', -, heq⟩ := h
    obtain ⟨hpair, -⟩ := List.cons.inj (Option.some.inj heq)
    have hlength := congrArg List.length (String.ofList_injective (Prod.mk.inj hpair).2)
    simp at hlength
  · rw [Text.splitOn_append_cons '"' hvalue, parameters?, hname]
    simp [hvalue, Option.bind_eq_some_iff]

/-! ### Whole payloads -/

structure BodyPart where
  contentType : String
  name : String
  fileName : Option String
  content : Bytes
  deriving DecidableEq

/-- The part that the fields of a header and a content make, if it is one of a form. -/
def bodyPart? (fields : List (String × String)) (content : Bytes) : Option BodyPart := do
  let contentType ← fields.lookup "Content-Type"
  let ("form-data", parameters) ← disposition? (← fields.lookup "Content-Disposition") | none
  return {
    contentType
    name := ← parameters.lookup "name"
    fileName := parameters.lookup "filename"
    content }

def dashed (boundary : String) : Bytes :=
  Bytes.ofString ("--" ++ boundary)

def delimiter (boundary : String) : Bytes :=
  lineEnd ++ dashed boundary

def parts? (boundary : String) (bs : Bytes) : Option (List BodyPart) :=
  match bs with
  | 45 :: 45 :: 13 :: 10 :: [] => some []
  | 13 :: 10 :: bs =>
    match _hheader : header? bs with
    | none => none
    | some (fields, rest) =>
      match _hcut : Bytes.cut (delimiter boundary) rest with
      | none => none
      | some (content, rest) => do
        let p ← bodyPart? fields content
        let ps ← parts? boundary rest
        return p :: ps
  | _ => none
termination_by bs.length
decreasing_by
  have hrest := Bytes.length_of_cut _hcut
  have hbs := congrArg List.length (of_header? _hheader).1
  rw [List.length_append] at hbs
  simp only [List.length_cons]
  omega

def split? (boundary : String) (payload : Bytes) : Option (List BodyPart) := do
  parts? boundary (← payload.dropPrefix? (dashed boundary))

/-- The delimiter after a content is found where the content does not look like one. -/
theorem cut_delimiter {boundary : String} (hboundary : '\r' ∉ boundary.toList) {content : Bytes}
    (hcontent : ¬ dashed boundary <:+: content) (rest : Bytes) :
    Bytes.cut (delimiter boundary) (content ++ (delimiter boundary ++ rest)) =
      some (content, rest) := by
  have hx : 13 ∉ (10 : UInt8) :: dashed boundary := by
    rw [List.mem_cons, not_or, dashed,
      Bytes.mem_ofString_iff (d := '\r') (by decide) rfl, String.toList_append, List.mem_append]
    exact ⟨by decide, not_or.mpr ⟨by decide, hboundary⟩⟩
  refine (Bytes.cut_eq_some_iff (x := 13) (t := 10 :: dashed boundary) hx).mpr ⟨rfl, fun h => ?_⟩
  exact hcontent ((List.suffix_append lineEnd (dashed boundary)).isInfix.trans h)

theorem parts?_closed (boundary : String) : parts? boundary ([45, 45] ++ lineEnd) = some [] := by
  rw [parts?.eq_def]
  rfl

/-- One part is read, and the reading goes on after the next delimiter. -/
theorem parts?_part {boundary : String} (hboundary : '\r' ∉ boundary.toList)
    {fs : List (String × String)}
    (hfs : ∀ f ∈ fs, ':' ∉ f.1.toList ∧ ¬ lineEnd <:+: fieldLine f.1 f.2) {content : Bytes}
    (hcontent : ¬ dashed boundary <:+: content) {p : BodyPart}
    (hp : bodyPart? fs content = some p) {rest : Bytes} {ps : List BodyPart}
    (hrest : parts? boundary rest = some ps) :
    parts? boundary
        (lineEnd ++ (headerLines fs ++ (content ++ (delimiter boundary ++ rest)))) =
      some (p :: ps) := by
  have hheader := header?_headerLines hfs (content ++ (delimiter boundary ++ rest))
  have hcut := cut_delimiter hboundary hcontent rest
  generalize headerLines fs ++ (content ++ (delimiter boundary ++ rest)) = bs at hheader
  show parts? boundary (13 :: 10 :: bs) = _
  rw [parts?]
  split
  · simp_all
  · rename_i hheader'
    obtain ⟨rfl, rfl⟩ := Prod.mk.inj (Option.some.inj (hheader.symm.trans hheader'))
    split
    · simp_all
    · rename_i hcut'
      obtain ⟨rfl, rfl⟩ := Prod.mk.inj (Option.some.inj (hcut.symm.trans hcut'))
      simp [hp, hrest]

end Multipart

end Marshal
