import Marshal.Models.AnyModel
import Marshal.Proofs.Multipart.Reader

/-!
The header of a part. Names go into it as they are; a reader finds in it what was put there exactly
if no name has a line end in it and no quoted one has a quote.
-/

namespace Marshal

/-! ### Where a word may stand -/

namespace Text

variable {α : Type} {x : α} {t : List α} {s : α} {a b : List α}

theorem cons_prefix_append_cons_iff (hs : s ∉ x :: t) : x :: t <+: a ++ s :: b ↔ x :: t <+: a := by
  constructor
  · intro h
    rcases List.prefix_or_prefix_of_prefix h (List.prefix_append a _) with ha | ⟨c, hc⟩
    · exact ha
    · rw [← hc, List.prefix_append_right_inj] at h
      cases c with
      | nil => exact ⟨[], by rw [List.append_nil, ← hc, List.append_nil]⟩
      | cons y c =>
          obtain ⟨rfl, -⟩ := List.cons_prefix_cons.mp h
          exact absurd (hc ▸ List.mem_append_right a List.mem_cons_self) hs
  · exact fun h => h.trans (List.prefix_append a _)

theorem not_cons_infix (h : x ∉ a) : ¬ x :: t <:+: a := fun ha =>
  h (ha.subset List.mem_cons_self)

/-- A word does not go across a letter that it does not have. -/
theorem cons_infix_append_cons_iff (hs : s ∉ x :: t) :
    x :: t <:+: a ++ s :: b ↔ x :: t <:+: a ∨ x :: t <:+: b := by
  induction a with
  | nil =>
      have hx : x ≠ s := fun h => hs (h ▸ List.mem_cons_self)
      simp [List.infix_cons_iff, List.cons_prefix_cons, hx]
  | cons c a ih =>
      have hprefix : x :: t <+: c :: (a ++ s :: b) ↔ x :: t <+: c :: a :=
        cons_prefix_append_cons_iff (a := c :: a) hs
      rw [List.cons_append, List.infix_cons_iff, hprefix, ih, List.infix_cons_iff, or_assoc]

end Text

namespace Part

variable {M : Type}

def fileNameText (p : Part M) : String :=
  match p.fileName with
  | some f => "; filename=\"" ++ f ++ "\""
  | none => ""

def disposition (p : Part M) : String :=
  "form-data; name=\"" ++ p.name ++ "\"" ++ p.fileNameText

def fields (p : Part M) : List (String × String) :=
  [("Content-Type", p.contentType), ("Content-Disposition", p.disposition)]

def parameters (p : Part M) : List (String × String) :=
  ("name", p.name) :: (p.fileName.map ("filename", ·)).toList

/-- A part that keeps its names within their places: none of them has a line end, and there is no
quote in one that stands in quotes. -/
structure Plain (p : Part M) : Prop where
  contentType : ¬ ['\r', '\n'] <:+: p.contentType.toList
  name : ¬ ['\r', '\n'] <:+: p.name.toList ∧ '"' ∉ p.name.toList
  fileName : ∀ f, p.fileName = some f → ¬ ['\r', '\n'] <:+: f.toList ∧ '"' ∉ f.toList

open Multipart Text
open MultipartDraft (lineEnd)

theorem run_string_cons (key : Option String) (v : String) (s : Script) (d : MultipartDraft) :
    Draft.run (.ok (.string key (some v)) :: s) d =
      Draft.run s (d.append
        (Bytes.ofString ((key.map fun k => k ++ ": " ++ v).getD v) ++ lineEnd)) := by
  cases key <;> rfl

theorem header_eq (p : Part M) (boundary : String) :
    p.header boundary = [
      .ok (.string none (some ("--" ++ boundary))),
      .ok (.string (some "Content-Type") (some p.contentType)),
      .ok (.string (some "Content-Disposition") (some p.disposition)),
      .ok (.string none (some ""))] := by
  obtain ⟨name, contentType, fileName, content⟩ := p
  cases fileName <;> rfl

/-- The header is written as the lines of its fields. -/
theorem run_header (p : Part M) (boundary : String) (d : MultipartDraft) :
    Draft.run (p.header boundary) d =
      (.ok (), d.append (dashed boundary ++ (lineEnd ++ headerLines p.fields))) := by
  simp only [header_eq, run_string_cons, Draft.run_nil, MultipartDraft.append, headerLines, fields,
    dashed, fieldLine, Option.map_some, Option.map_none, Option.getD_some, Option.getD_none,
    Bytes.ofString_empty, List.flatMap_cons, List.flatMap_nil, List.append_assoc, List.nil_append]

/-! ### The disposition -/

def formData : List Char := "form-data".toList

def nameLabel : List Char := "; name=".toList

def fileNameLabel : List Char := "; filename=".toList

theorem toList_disposition (p : Part M) :
    p.disposition.toList =
      formData ++ (nameLabel ++ '"' :: (p.name.toList ++ '"' :: p.fileNameText.toList)) := by
  have hquote : ("\"" : String).toList = ['"'] := rfl
  have hlabel : ("form-data; name=\"" : String).toList = formData ++ (nameLabel ++ ['"']) := by
    decide
  show ("form-data; name=\"" ++ p.name ++ "\"" ++ p.fileNameText).toList = _
  rw [String.toList_append, String.toList_append, String.toList_append, hquote, hlabel]
  simp only [List.append_assoc, List.cons_append, List.nil_append]

theorem toList_fileNameText_of_some {p : Part M} {f : String} (h : p.fileName = some f) :
    p.fileNameText.toList = fileNameLabel ++ '"' :: (f.toList ++ ['"']) := by
  have hquote : ("\"" : String).toList = ['"'] := rfl
  have hlabel : ("; filename=\"" : String).toList = fileNameLabel ++ ['"'] := rfl
  rw [fileNameText, h]
  show ("; filename=\"" ++ f ++ "\"").toList = _
  rw [String.toList_append, String.toList_append, hquote, hlabel]
  simp only [List.append_assoc, List.cons_append, List.nil_append]

theorem toList_fileNameText_of_none {p : Part M} (h : p.fileName = none) :
    p.fileNameText.toList = [] := by
  rw [fileNameText, h]
  rfl

/-- The disposition has a line end only where a name has one. -/
theorem lineEnd_infix_disposition (p : Part M) :
    ['\r', '\n'] <:+: p.disposition.toList ↔
      ['\r', '\n'] <:+: p.name.toList ∨ ∃ f, p.fileName = some f ∧ ['\r', '\n'] <:+: f.toList := by
  have hlabel : ¬ ['\r', '\n'] <:+: formData ++ nameLabel := not_cons_infix (by decide)
  have hfile : ¬ ['\r', '\n'] <:+: fileNameLabel := not_cons_infix (by decide)
  rw [toList_disposition, ← List.append_assoc, cons_infix_append_cons_iff (by decide),
    cons_infix_append_cons_iff (by decide)]
  cases hf : p.fileName with
  | none => simp [hlabel, toList_fileNameText_of_none hf]
  | some f =>
      rw [toList_fileNameText_of_some hf, cons_infix_append_cons_iff (by decide),
        cons_infix_append_cons_iff (by decide)]
      simp [hlabel, hfile]

/-- A reader finds the names in the disposition exactly if there are no quotes in them. -/
theorem disposition?_iff (p : Part M) :
    disposition? p.disposition = some ("form-data", p.parameters) ↔
      '"' ∉ p.name.toList ∧ ∀ f, p.fileName = some f → '"' ∉ f.toList := by
  have hplain : ∀ c ∈ formData, (c != ';') = true := List.all_eq_true.mp rfl
  have hkind : Text.upTo ';' p.disposition.toList = formData := by
    rw [toList_disposition, Text.upTo, List.takeWhile_append_of_pos hplain]
    exact List.append_nil formData
  have hname : ("name", p.name) = ("name", String.ofList p.name.toList) := by
    rw [String.ofList_toList]
  rw [disposition?, hkind, toList_disposition, List.drop_left, parameters, hname]
  have hread (o : Option (List (String × String))) (ps : List (String × String)) :
      o.map (String.ofList formData, ·) = some ("form-data", ps) ↔ o = some ps := by
    have hdata : String.ofList formData = "form-data" := by decide
    rw [hdata]
    cases o <;> simp
  rw [hread, parameters?_quoted_iff (by decide) (by decide)]
  refine and_congr_right fun _ => ?_
  cases hf : p.fileName with
  | none =>
      rw [toList_fileNameText_of_none hf]
      simp [Text.splitOn, parameters?]
  | some f =>
      have hfile : ("filename", f) = ("filename", String.ofList f.toList) := by
        rw [String.ofList_toList]
      rw [toList_fileNameText_of_some hf, Option.map_some, Option.toList_some, hfile,
        parameters?_quoted_iff (by decide) (by decide)]
      simp [Text.splitOn, parameters?]

theorem lineEnd_infix_fieldLine {name : String} (h : '\r' ∉ name.toList) (value : String) :
    lineEnd <:+: fieldLine name value ↔ ['\r', '\n'] <:+: value.toList := by
  have hname : ¬ ['\r', '\n'] <:+: name.toList := not_cons_infix h
  have hblank : ['\r', '\n'] <:+: ' ' :: value.toList ↔ ['\r', '\n'] <:+: value.toList := by
    simp [List.infix_cons_iff, List.cons_prefix_cons]
  rw [lineEnd, fieldLine, Bytes.lineEnd_infix_ofString, toList_fieldLine,
    cons_infix_append_cons_iff (by decide), hblank]
  simp [hname]

theorem not_mem_colon_fields (p : Part M) : ∀ f ∈ p.fields, ':' ∉ f.1.toList := by
  have hnames : ∀ n ∈ ["Content-Type", "Content-Disposition"], ':' ∉ n.toList := by decide
  intro f hf
  exact hnames f.1 (List.mem_map_of_mem (f := Prod.fst) hf)

theorem plain_iff (p : Part M) :
    p.Plain ↔ (∀ f ∈ p.fields, ¬ lineEnd <:+: fieldLine f.1 f.2) ∧
      disposition? p.disposition = some ("form-data", p.parameters) := by
  have htype : '\r' ∉ "Content-Type".toList := by decide
  have hdisposition : '\r' ∉ "Content-Disposition".toList := by decide
  rw [disposition?_iff, fields, List.forall_mem_cons, List.forall_mem_singleton,
    lineEnd_infix_fieldLine htype, lineEnd_infix_fieldLine hdisposition,
    lineEnd_infix_disposition]
  constructor
  · intro h
    refine ⟨⟨h.contentType, not_or.mpr ⟨h.name.1, ?_⟩⟩, h.name.2, fun f hf => (h.fileName f hf).2⟩
    rintro ⟨f, hf, hline⟩
    exact (h.fileName f hf).1 hline
  · rintro ⟨⟨hcontent, hline⟩, hname, hfile⟩
    rw [not_or] at hline
    exact ⟨hcontent, ⟨hline.1, hname⟩, fun f hf => ⟨fun hl => hline.2 ⟨f, hf, hl⟩, hfile f hf⟩⟩

/-- The header that is written for a part reads as two fields, the second with no parameters but
the name and the file name as they are, exactly if the part is plain. -/
theorem header_read_iff (p : Part M) (boundary : String) (d : MultipartDraft) (content : Bytes) :
    ∃ block : Bytes,
      Draft.run (p.header boundary) d =
          (.ok (), d.append (Bytes.ofString ("--" ++ boundary) ++ (lineEnd ++ block))) ∧
        ((∃ disposition : String,
            header? (block ++ content) =
                some ([("Content-Type", p.contentType), ("Content-Disposition", disposition)],
                  content) ∧
              disposition? disposition = some ("form-data", p.parameters)) ↔
          p.Plain) := by
  refine ⟨headerLines p.fields, run_header p boundary d, ?_⟩
  rw [plain_iff]
  constructor
  · rintro ⟨disposition, hheader, hparameters⟩
    obtain ⟨hlines, hfree⟩ := of_header? hheader
    -- What was read makes up the header again, so the disposition is the one that was written.
    obtain rfl : p.disposition = disposition := by
      rw [List.append_cancel_right_eq] at hlines
      simpa [headerLines, fields, fieldLine_inj] using hlines
    exact ⟨hfree, hparameters⟩
  · rintro ⟨hfree, hparameters⟩
    have hfields := fun f hf => And.intro (p.not_mem_colon_fields f hf) (hfree f hf)
    exact ⟨p.disposition, header?_headerLines hfields content, hparameters⟩

def smuggling : Part AnyModel where
  name := "a\"\r\nX-Evil: 1"
  contentType := "text/plain"
  fileName := none
  content := .text "x"

/-- A body takes that part; the reader finds another name in it, and a field more. -/
theorem header_of_smuggling :
    (∃ b : AnyBody, MultipartBody.add { boundary := "b" } smuggling = .ok b) ∧
      ∃ block : Bytes,
        Draft.run (smuggling.header "b") ({} : MultipartDraft) =
            (.ok (), { bytes := Bytes.ofString "--b" ++ (lineEnd ++ block) }) ∧
          header? block =
            some ([("Content-Type", "text/plain"),
              ("Content-Disposition", "form-data; name=\"a\""), ("X-Evil", "1\"")], []) := by
  have hlines : headerLines smuggling.fields =
      headerLines [("Content-Type", "text/plain"),
        ("Content-Disposition", "form-data; name=\"a\""), ("X-Evil", "1\"")] ++ [] := by
    decide +kernel
  refine ⟨⟨_, rfl⟩, headerLines smuggling.fields, run_header smuggling "b" {}, ?_⟩
  rw [hlines]
  exact header?_headerLines (by decide) []

end Part

end Marshal
