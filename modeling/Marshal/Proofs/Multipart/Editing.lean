import Mathlib.Data.List.Induction
import Marshal.Proofs.Members
import Marshal.Proofs.Multipart.Payload

/-!
Histories of multipart bodies. However parts are added and erased, a body is an ordered map under
names that differ in more than letter case, and it is written in the order of its parts.
-/

namespace Marshal

structure Part.Fit {M : Type} (p : Part M) : Prop where
  name : Text.trim p.name ≠ ""
  contentType : Text.trim p.contentType ≠ ""

namespace MultipartBody

variable {M : Type}

/-- What may be done to the parts of a body. A file is a part with a file name. -/
inductive Edit (M : Type)
  | add (p : Part M)
  | erase (name : String)

/-- How an edit ends, and what the body is like then. It may be refused; otherwise the answer is
whether there was something to do. -/
def Edit.perform : Edit M → MultipartBody M → Result Bool × MultipartBody M
  | add p, b =>
    match b.add p with
    | .ok b' => (.ok true, b')
    | .error e => (.error e, b)
  | erase name, b => (.ok (b.has name), b.erase name)

def after (boundary : String) (encoders : Encoders) (history : List (Edit M)) : MultipartBody M :=
  history.foldl (fun b e => (e.perform b).2) { boundary, encoders }

def withList (b : MultipartBody M) (ps : List (Part M)) : MultipartBody M :=
  { b with parts := ps.map fun p => (Text.lower p.name, p) }

/-- What edits do to an ordered map of parts whose names are compared without letter case. -/
structure OrderedMap (b : MultipartBody M) : Prop where
  distinct : b.list.Pairwise fun p q => Text.lower p.name ≠ Text.lower q.name
  /-- A part takes the place of the one with its name. -/
  replaced : ∀ {p q : Part M} {front back : List (Part M)}, p.Fit → b.list = front ++ q :: back →
    Text.lower q.name = Text.lower p.name →
    (Edit.add p).perform b = (.ok true, b.withList (front ++ p :: back))
  /-- A part with a new name comes last. -/
  appended : ∀ {p : Part M}, p.Fit → (∀ q ∈ b.list, Text.lower q.name ≠ Text.lower p.name) →
    (Edit.add p).perform b = (.ok true, b.withList (b.list ++ [p]))
  refused_name : ∀ {p : Part M}, Text.trim p.name = "" →
    (Edit.add p).perform b = (.error (.invalidArgument .blankPartName), b)
  refused_type : ∀ {p : Part M}, Text.trim p.name ≠ "" → Text.trim p.contentType = "" →
    (Edit.add p).perform b = (.error (.invalidArgument .blankPartType), b)
  /-- The part with the name goes, and the others stay in their order. -/
  erased : ∀ {name : String} {q : Part M} {front back : List (Part M)},
    b.list = front ++ q :: back → Text.lower q.name = Text.lower name →
    (Edit.erase name).perform b = (.ok true, b.withList (front ++ back))
  absent : ∀ {name : String}, (∀ q ∈ b.list, Text.lower q.name ≠ Text.lower name) →
    (Edit.erase name).perform b = (.ok false, b)

/-! ### Adding -/

section

variable (b : MultipartBody M) {p : Part M}

theorem add_of_blank_name (h : Text.trim p.name = "") :
    (Edit.add p).perform b = (.error (.invalidArgument .blankPartName), b) := by
  simp [Edit.perform, add, h]

theorem add_of_blank_type (hname : Text.trim p.name ≠ "") (h : Text.trim p.contentType = "") :
    (Edit.add p).perform b = (.error (.invalidArgument .blankPartType), b) := by
  simp [Edit.perform, add, hname, h]

theorem add_of_fit (h : p.Fit) :
    (Edit.add p).perform b =
      (.ok true, { b with parts := Members.put b.parts (Text.lower p.name) p }) := by
  simp [Edit.perform, add, h.name, h.contentType]

end

/-! ### Bodies as histories make them -/

/-- Every part is under its name, and under that name alone. -/
structure Filed (b : MultipartBody M) : Prop where
  named : ∀ q ∈ b.parts, q.1 = Text.lower q.2.name
  nodup : (Members.keys b.parts).Nodup

namespace Filed

variable {b : MultipartBody M} (h : b.Filed)

include h

theorem withList_list : b.withList b.list = b := by
  have hparts : b.list.map (fun p => (Text.lower p.name, p)) = b.parts := by
    rw [list, List.map_map]
    refine (List.map_congr_left fun q hq => ?_).trans (List.map_id _)
    exact Prod.ext (h.named q hq).symm rfl
  rw [withList, hparts]

theorem parts_eq : b.parts = b.list.map fun p => (Text.lower p.name, p) :=
  congrArg MultipartBody.parts h.withList_list.symm

theorem keys_eq : Members.keys b.parts = b.list.map fun p => Text.lower p.name := by
  rw [h.parts_eq, Members.keys, List.map_map]
  rfl

theorem not_mem_keys {name : String} (hnew : ∀ q ∈ b.list, Text.lower q.name ≠ Text.lower name) :
    Text.lower name ∉ Members.keys b.parts := by
  rw [h.keys_eq]
  intro hmem
  obtain ⟨q, hq, hname⟩ := List.mem_map.mp hmem
  exact hnew q hq hname

/-- Around a part, no other part has its name. -/
theorem around {q : Part M} {front back : List (Part M)} (hlist : b.list = front ++ q :: back) :
    Text.lower q.name ∉ Members.keys (front.map fun p => (Text.lower p.name, p)) ∧
      Text.lower q.name ∉ Members.keys (back.map fun p => (Text.lower p.name, p)) := by
  have hnodup := h.nodup
  rw [h.keys_eq, hlist, List.map_append, List.map_cons, List.nodup_middle,
    List.nodup_cons] at hnodup
  have hnone := hnodup.1
  rw [List.mem_append, not_or] at hnone
  simpa [Members.keys, Function.comp_def] using hnone

theorem perform (e : Edit M) : ((e.perform b).2).Filed := by
  cases e with
  | add p =>
      by_cases hname : Text.trim p.name = ""
      · rw [add_of_blank_name b hname]
        exact h
      · by_cases htype : Text.trim p.contentType = ""
        · rw [add_of_blank_type b hname htype]
          exact h
        · rw [add_of_fit b ⟨hname, htype⟩]
          refine ⟨fun q hq => ?_, Members.nodup_keys_put h.nodup _ _⟩
          rcases Members.mem_put hq with rfl | hq
          · rfl
          · exact h.named q hq
  | erase name =>
      exact ⟨fun q hq => h.named q (List.mem_filter.mp hq).1,
        h.nodup.sublist (List.filter_sublist.map Prod.fst)⟩

theorem orderedMap : b.OrderedMap where
  distinct := by
    have hnodup := h.nodup
    rw [h.keys_eq] at hnodup
    exact List.pairwise_map.mp hnodup
  replaced := by
    intro p q front back hfit hlist hname
    have hput : Members.put b.parts (Text.lower p.name) p =
        (front ++ p :: back).map fun p => (Text.lower p.name, p) := by
      rw [h.parts_eq, hlist, List.map_append, List.map_append, List.map_cons, List.map_cons,
        ← hname]
      exact Members.put_append_cons (h.around hlist).1 _ q p
    rw [add_of_fit b hfit, hput, withList]
  appended := by
    intro p hfit hnew
    have hput : Members.put b.parts (Text.lower p.name) p =
        (b.list ++ [p]).map fun p => (Text.lower p.name, p) := by
      rw [Members.put_of_not_mem (h.not_mem_keys hnew), List.map_append, ← h.parts_eq]
      rfl
    rw [add_of_fit b hfit, hput, withList]
  refused_name := fun hname => add_of_blank_name b hname
  refused_type := fun hname htype => add_of_blank_type b hname htype
  erased := by
    intro name q front back hlist hname
    have hhas : b.has name = true := by
      rw [has, Members.has_iff_mem_keys, h.keys_eq, hlist]
      simp [hname]
    have herase : Members.erase b.parts (Text.lower name) =
        (front ++ back).map fun p => (Text.lower p.name, p) := by
      obtain ⟨hfront, hback⟩ := h.around hlist
      rw [h.parts_eq, hlist, List.map_append, List.map_append, List.map_cons, ← hname]
      exact Members.erase_append_cons hfront hback q
    rw [Edit.perform, hhas, erase, herase, withList]
  absent := by
    intro name hnew
    have hkey := h.not_mem_keys hnew
    have hhas : b.has name = false := by
      rw [has, ← Bool.not_eq_true, Members.has_iff_mem_keys]
      exact hkey
    rw [Edit.perform, hhas, erase, Members.erase_of_not_mem hkey]

end Filed

theorem after_concat (boundary : String) (encoders : Encoders) (history : List (Edit M))
    (e : Edit M) :
    after boundary encoders (history ++ [e]) = (e.perform (after boundary encoders history)).2 :=
  List.foldl_concat ..

theorem filed_after (boundary : String) (encoders : Encoders) (history : List (Edit M)) :
    (after boundary encoders history).Filed := by
  induction history using List.reverseRecOn with
  | nil => exact ⟨List.forall_mem_nil _, .nil⟩
  | append_singleton history e ih =>
      rw [after_concat]
      exact ih.perform e

end MultipartBody

/-! ### Writing -/

namespace AnyModel

open Multipart
open MultipartDraft (lineEnd)

theorem run_writePart_error {encoders : Encoders} {p : Part AnyModel} {e : Error}
    (h : p.alone encoders = .error e) (boundary : String) (d : MultipartDraft) (ls : List Layer)
    (log : Log) :
    ∃ (p' : Part AnyModel) (o : Output),
      (MultipartBody.writePart boundary encoders
          ⟨p.name, p.contentType, p.fileName, outgoingContent p.content⟩).run
          ⟨.multipart d, ls, log⟩ = ((.error e, p'), o) := by
  obtain ⟨content, log', hcontent⟩ := Part.run_contentBytes_alone encoders p
    ⟨.multipart (d.append (dashed boundary ++ (lineEnd ++ headerLines p.fields))), ls, log⟩
  rw [h] at hcontent
  have hwrite : (MultipartBody.writeContent encoders p.contentType
      (outgoingContent p.content)).run
        ⟨.multipart (d.append (dashed boundary ++ (lineEnd ++ headerLines p.fields))), ls, log⟩ =
      ((.error e, content), ⟨.multipart
        (d.append (dashed boundary ++ (lineEnd ++ headerLines p.fields))), ls, log'⟩) := by
    rw [MultipartBody.writeContent, WriteM.run_bind_of hcontent]
    rfl
  rw [MultipartBody.writePart, WriteM.run_bind_of (run_header p boundary d ls log)]
  exact ⟨_, _, WriteM.run_bind_of hwrite _⟩

/-- The first part that fails ends the writing of all. -/
theorem run_writeParts_error {encoders : Encoders} (boundary : String)
    {parts : List (String × Part AnyModel)} {e : Error}
    (h : parts.mapM (fun p => p.2.alone encoders) = .error e) (d : MultipartDraft)
    (ls : List Layer) (log : Log) :
    ∃ (parts' : Members (Part AnyModel)) (o : Output),
      (MultipartBody.writeParts boundary encoders (outgoingParts parts)).run
          ⟨.multipart d, ls, log⟩ = ((.error e, parts'), o) := by
  induction parts generalizing d log with
  | nil => cases h
  | cons p parts ih =>
      obtain ⟨key, name, contentType, fileName, content⟩ := p
      rw [List.mapM_cons] at h
      rw [outgoingParts, MultipartBody.writeParts]
      cases hp : Part.alone encoders ⟨name, contentType, fileName, content⟩ with
      | error e' =>
          rw [hp] at h
          obtain rfl : e' = e := Except.error.inj h
          obtain ⟨p', o, hwrite⟩ := run_writePart_error hp boundary d ls log
          exact ⟨_, o, WriteM.run_bind_of hwrite _⟩
      | ok c =>
          have hrest : parts.mapM (fun p => p.2.alone encoders) = .error e := by
            cases hparts : parts.mapM (fun p => p.2.alone encoders) with
            | error e' => simpa [hp, hparts, bind, Except.bind] using h
            | ok cs => simp [hp, hparts, bind, Except.bind, pure, Except.pure] at h
          obtain ⟨p', log', hwrite⟩ := run_writePart hp boundary d ls log
          obtain ⟨parts', o, hparts⟩ := ih hrest _ log'
          exact ⟨_, o, (WriteM.run_bind_of hwrite _).trans (WriteM.run_bind_of hparts _)⟩

/-- A body without parts, or with one that fails, is not written. -/
theorem run_write_error {b : AnyBody} {e : Error}
    (h : b.parts = [] ∧ e = .invalidArgument .noParts ∨
      b.parts ≠ [] ∧ b.parts.mapM (fun p => p.2.alone b.encoders) = .error e) :
    ∃ (b' : AnyBody) (o : Output),
      ((Writable.outgoing b).write none).run ⟨.multipart {}, [], []⟩ = ((.error e, b'), o) := by
  show ∃ b' o, (MultipartBody.write (outgoingParts b.parts) none b).run ⟨.multipart {}, [], []⟩ =
    ((.error e, b'), o)
  have hstart : Draft.call (.startObject none .multipartBody) (AnyDraft.multipart {}) =
      (.ok (), .multipart { depth := 1 }) := rfl
  have hfailed {fields : Writing AnyBody Unit} {b' : AnyBody} {o : Output}
      (hfields : fields.runAt b ⟨.multipart { depth := 1 }, [], []⟩ = ((.error e, b'), o)) :=
    Writing.runAt_object_failed (o := ⟨.multipart {}, [], []⟩) Layer.quiet_nil none
      .multipartBody (fun _ : AnyBody => {}) (fun _ b => b) hstart hfields
  rcases h with ⟨hempty, rfl⟩ | ⟨hne, hparts⟩
  · rw [MultipartBody.write, hempty]
    exact ⟨_, _, hfailed rfl⟩
  · obtain ⟨parts', o, hwrite⟩ := run_writeParts_error b.boundary hparts { depth := 1 } [] []
    have hsome : (outgoingParts b.parts).isEmpty = false := by
      rw [isEmpty_outgoingParts]
      exact List.isEmpty_eq_false_iff.mpr hne
    have hcomponent : (Writing.component
        (MultipartBody.writeParts b.boundary b.encoders (outgoingParts b.parts))
        fun parts (b : AnyBody) => { b with parts }).runAt b ⟨.multipart { depth := 1 }, [], []⟩ =
        ((.error e, { b with parts := parts' }), o) := by
      rw [Writing.runAt_component, hwrite]
    rw [MultipartBody.write, hsome]
    exact ⟨_, _, hfailed (Writing.runAt_bind_error hcomponent _)⟩

end AnyModel

namespace MultipartBody

open AnyModel

variable {s : Serializer} {contentType key : String}

/-- What a body should be written as: one block for each part, in the order of the parts. Instead
there is a fault if there are no parts, or the one of the first part that cannot be written. -/
def inOrder (b : AnyBody) : Result Payload :=
  if b.list = [] then .error (.invalidArgument .noParts)
  else (b.list.mapM (Part.alone b.encoders)).map fun contents =>
    ⟨b.contentType, payload b.boundary (b.list.zip contents)⟩

theorem result_serialize (hc : s.encoders.find contentType = .ok (key, .multipart)) (b : AnyBody) :
    (s.serialize contentType b).result = b.inOrder := by
  have ho : s.output contentType = .ok ⟨.multipart {}, [], []⟩ := Serializer.output_of_find hc
  have hmap : b.list.mapM (Part.alone b.encoders) =
      b.parts.mapM fun p => p.2.alone b.encoders := List.mapM_map
  rw [inOrder, hmap, Serializer.serialize]
  by_cases hempty : b.parts = []
  · obtain ⟨b', o, hrun⟩ := run_write_error (.inl ⟨hempty, rfl⟩)
    have hlist : b.list = [] := by
      rw [list, hempty, List.map_nil]
    rw [if_pos hlist, Serializer.send_of_error ho hrun]
  · have hlist : b.list ≠ [] := by
      rw [list]
      exact mt List.map_eq_nil_iff.mp hempty
    rw [if_neg hlist]
    cases hcontents : b.parts.mapM fun p => p.2.alone b.encoders with
    | error e =>
        obtain ⟨b', o, hrun⟩ := run_write_error (.inr ⟨hempty, hcontents⟩)
        rw [Serializer.send_of_error ho hrun]
        rfl
    | ok contents =>
        obtain ⟨b', log, hrun, hb'⟩ := run_write hempty (forall₂_of_mapM_ok hcontents)
        have htype : b'.contentType = b.contentType :=
          congrArg ("multipart/form-data; boundary=" ++ ·) hb'
        have hwrite : ((Writable.outgoing b).write none).run ⟨.multipart {}, [], []⟩ =
            ((.ok (), b'), ⟨.multipart { bytes := payload b.boundary (b.list.zip contents) }, [],
              log⟩) := hrun
        simp only [Serializer.send, ho, hwrite]
        show Except.ok (⟨b'.contentType, _⟩ : Payload) = _
        rw [htype]
        rfl

/-- However a body has been edited, it is an ordered map of its parts, and it is written in their
order, each part once. -/
theorem orderedMap_of_history (boundary : String) (encoders : Encoders)
    (history : List (Edit AnyModel)) :
    (after boundary encoders history).OrderedMap ∧
      ∀ {s : Serializer} {contentType key : String},
        s.encoders.find contentType = .ok (key, .multipart) →
          (s.serialize contentType (after boundary encoders history)).result =
            (after boundary encoders history).inOrder :=
  ⟨(filed_after boundary encoders history).orderedMap, fun hc => result_serialize hc _⟩

def edits : List (Edit AnyModel) := [
  .add ⟨"élan", "text/plain", some "a.txt", .text "zero"⟩,
  .add ⟨"photo", "image/png", none, .binary [1]⟩,
  .add ⟨"card", "application/pdf", none, .binary [50]⟩,
  .add ⟨"\u00a0", "text/plain", none, .text "lost"⟩,
  .add ⟨"ÉLAN", "text/html", none, .text "one"⟩,
  .erase "Photo",
  .erase "cards"]

theorem orderedMap_of_history_edits :
    (after "frontier" .stock edits).list = [
      ⟨"ÉLAN", "text/html", none, .text "one"⟩,
      ⟨"card", "application/pdf", none, .binary [50]⟩] ∧
    (({} : Serializer).serialize ContentType.multipart (after "frontier" .stock edits)).result =
      .ok ⟨"multipart/form-data; boundary=frontier", Bytes.ofString
        ("--frontier\r\nContent-Type: text/html\r\n" ++
          "Content-Disposition: form-data; name=\"ÉLAN\"\r\n\r\none\r\n" ++
          "--frontier\r\nContent-Type: application/pdf\r\n" ++
          "Content-Disposition: form-data; name=\"card\"\r\n\r\n2\r\n--frontier--\r\n")⟩ := by
  have hlist : (after "frontier" .stock edits).list = [
      ⟨"ÉLAN", "text/html", none, .text "one"⟩,
      ⟨"card", "application/pdf", none, .binary [50]⟩] := rfl
  have hc : Encoders.stock.find ContentType.multipart = .ok (ContentType.multipart, .multipart) :=
    rfl
  have hwritten := (orderedMap_of_history "frontier" .stock edits).2 (s := {}) hc
  refine ⟨hlist, hwritten.trans ?_⟩
  rw [inOrder, hlist]
  refine congrArg (fun bytes => Except.ok (⟨_, bytes⟩ : Payload)) ?_
  decide +kernel

end MultipartBody

end Marshal
