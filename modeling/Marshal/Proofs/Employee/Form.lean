import Mathlib.Data.List.Nodup
import Marshal.Models.AnyModel
import Marshal.Proofs.Employee.Writing
import Marshal.Proofs.Form.Additional
import Marshal.Proofs.Form.Field

/-!
Employees in a form, and what undeclared fields do there to the declared ones.
-/

namespace Marshal

namespace Employee

open Writing

def flatNames : List String :=
  Particulars.fields.map (·.name)

theorem spreads_fields : ∀ f ∈ Particulars.fields, f.codec.Spreads := by
  simp only [Particulars.fields, List.forall_mem_cons]
  exact ⟨Kind.codec_spreads .string, Kind.codec_spreads .string, Kind.codec_spreads .int,
    Kind.codec_spreads .long, Kind.codec_spreads .byte, Kind.codec_spreads .sbyte,
    Kind.codec_spreads .float, Kind.codec_spreads .double, Kind.codec_spreads .decimal,
    Kind.codec_spreads .bool, Kind.codec_spreads .dateTime, Kind.codec_spreads .date,
    Kind.codec_spreads .time, Kind.codec_spreads .timeSpan, Kind.codec_spreads .guid,
    Kind.codec_spreads .bytes, Status.wire.codec_spreads, Permissions.wire.codec_spreads,
    Kind.listCodec_spreads .string, Kind.listCodec_spreads .int, Status.wire.listCodec_spreads,
    List.forall_mem_nil _⟩

/-! ### Writing -/

section

variable {d : FormDraft} {log : Log} {o : Output}

/-- An employee below the root of a form is refused. -/
theorem write_refused (log : Log) (hroot : d.inRoot = true) (e : Employee)
    (key : Option String) :
    ∃ err b o, (e.write key).runAt () ⟨.form d, [], log⟩ = ((.error err, b), o) := by
  obtain ⟨particulars, manager, colleagues, additional⟩ := e
  exact ⟨_, _, _, runAt_object_refused (o := ⟨.form d, [], log⟩) Layer.quiet_nil key .model _ _ _
    (AnyDraft.startObject_form hroot key .model)⟩

theorem eq_of_writeManager (hd : d.Open) {manager : Option Employee}
    (h : (writeManager manager).runAt () ⟨.form d, [], log⟩ = ((.ok (), ()), o)) :
    o = ⟨.form d, [], log⟩ := by
  cases manager with
  | none => exact (congrArg Prod.snd h).symm
  | some m =>
      obtain ⟨err, b, o', hrun⟩ := write_refused log hd.root m (some "manager")
      rw [writeManager, hrun] at h
      cases h

theorem eq_of_writeColleagues (hd : d.Open) {colleagues : Option (List Employee)}
    (h : (writeColleagues colleagues).runAt () ⟨.form d, [], log⟩ = ((.ok (), ()), o)) :
    o = ⟨.form d, [], log⟩ := by
  cases colleagues with
  | none => exact (congrArg Prod.snd h).symm
  | some es =>
      obtain ⟨pairs, inRoot, collection⟩ := d
      obtain rfl : inRoot = true := hd.root
      obtain rfl : collection = none := hd.collection
      cases es with
      | nil => exact (congrArg Prod.snd h).symm
      | cons e es =>
          obtain ⟨err, b, o', hrun⟩ := write_refused (d := ⟨pairs, true, some "colleagues"⟩)
            log rfl e none
          have heach : (writeEach (e :: es)).runAt ()
              ⟨.form ⟨pairs, true, some "colleagues"⟩, [], log⟩ = ((.error err, b), o') := by
            rw [writeEach]
            exact runAt_bind_error hrun _
          obtain ⟨_, _, _, hstart, hrest⟩ := exists_of_runAt_bind h
          cases hstart
          obtain ⟨_, _, _, hsome, -⟩ := exists_of_runAt_bind hrest
          rw [heach] at hsome
          cases hsome

end

def writeDeclared (e : Employee) : Writing Unit Unit := do
  .script (Field.scripts Particulars.fields e.particulars)
  writeManager e.manager
  writeColleagues e.colleagues

/-- What a form that takes the declared fields has in it. -/
theorem exists_of_writeDeclared {e : Employee} {o : Output}
    (h : e.writeDeclared.runAt () ⟨.form ⟨[], true, none⟩, [], []⟩ = ((.ok (), ()), o)) :
    ∃ pairs : Form.Pairs, (∀ p ∈ pairs, p.1 ∈ flatNames) ∧
      o = ⟨.form ⟨pairs, true, none⟩, [], []⟩ := by
  obtain ⟨⟨⟩, ⟨⟩, o₁, hscript, hrelations⟩ := exists_of_runAt_bind h
  obtain ⟨⟨⟩, ⟨⟩, o₂, hmanager, hcolleagues⟩ := exists_of_runAt_bind hrelations
  rcases hrun : Draft.run (Field.scripts Particulars.fields e.particulars)
    (AnyDraft.form ⟨[], true, none⟩) with ⟨result, x⟩
  rw [runAt_script, hrun] at hscript
  cases hscript
  obtain ⟨pairs, rfl, hnames⟩ := Field.exists_of_run_scripts spreads_fields
    (d := ⟨[], true, none⟩) ⟨rfl, rfl⟩ hrun
  have hopen : FormDraft.Open (FormDraft.extend ⟨[], true, none⟩ pairs) := ⟨rfl, rfl⟩
  obtain rfl := eq_of_writeManager hopen hmanager
  obtain rfl := eq_of_writeColleagues hopen hcolleagues
  exact ⟨pairs, hnames, rfl⟩

/-- An employee at the root of a form: what is left to run once its object has been opened. -/
theorem runAt_write (e : Employee) :
    (e.write none).runAt () ⟨.form {}, [], []⟩ = (do
      e.writeDeclared
      .perform (Output.writeAdditional e.additional)
      call .endObject
      discard (observe .after (fun _ => { extra := some e.additional.length }) fun _ a => a) :
        Writing Unit Unit).runAt () ⟨.form ⟨[], true, none⟩, [], []⟩ := by
  have hstart : Draft.call (.startObject none .model) (AnyDraft.form {}) =
      (.ok (), .form ⟨[], true, none⟩) := rfl
  rw [write_eq, plainObject, runAt_object_begun Layer.quiet_nil none .model _ _ hstart]
  simp only [writeDeclared, bind_assoc]

/-- What a form that takes an employee has in it, and that it takes the employee without undeclared
fields as well. -/
theorem exists_of_write {e : Employee} (hscalar : ∀ m ∈ e.additional, m.2.scalarText?.isSome)
    {o : Output} (h : (e.write none).runAt () ⟨.form {}, [], []⟩ = ((.ok (), ()), o)) :
    ∃ pairs : Form.Pairs, (∀ p ∈ pairs, p.1 ∈ flatNames) ∧
      o = ⟨.form ⟨pairs ++ Form.kept pairs e.additional, false, none⟩, [], []⟩ ∧
      (e.bare.write none).runAt () ⟨.form {}, [], []⟩ =
        ((.ok (), ()), ⟨.form ⟨pairs, false, none⟩, [], []⟩) := by
  obtain ⟨particulars, manager, colleagues, additional⟩ := e
  rw [runAt_write] at h
  obtain ⟨⟨⟩, ⟨⟩, o₁, hdeclared, hrest⟩ := exists_of_runAt_bind h
  obtain ⟨⟨⟩, ⟨⟩, o₂, hadditional, hend⟩ := exists_of_runAt_bind hrest
  obtain ⟨pairs, hnames, rfl⟩ := exists_of_writeDeclared hdeclared
  rcases hrun : Draft.writeAdditional additional (AnyDraft.form ⟨pairs, true, none⟩)
    with ⟨result, x⟩
  rw [runAt_perform, Output.run_writeAdditional, Employee.additional, hrun] at hadditional
  cases hadditional
  obtain rfl := Draft.writeAdditional_form hscalar hrun
  refine ⟨pairs, hnames, (congrArg Prod.snd hend).symm, ?_⟩
  -- Without undeclared fields the run is the same up to where these would be written.
  rw [bare, runAt_write]
  exact runAt_bind_ok hdeclared _

theorem output_form : ({} : Serializer).output ContentType.form = .ok ⟨.form {}, [], []⟩ := rfl

theorem serialize_of_write {e : Employee} {pairs : Form.Pairs}
    (h : (e.write none).runAt () ⟨.form {}, [], []⟩ =
      ((.ok (), ()), ⟨.form ⟨pairs, false, none⟩, [], []⟩)) :
    (({} : Serializer).serialize ContentType.form e).result =
      .ok ⟨ContentType.form, Form.bytes pairs⟩ := by
  have hrun : ((Writable.outgoing e).write none).run ⟨.form {}, [], []⟩ =
      ((.ok (), e), ⟨.form ⟨pairs, false, none⟩, [], []⟩) := by
    show ((Outgoing.ofUnmarked e fun key => e.write key).write none).run _ = _
    rw [run_ofUnmarked, h]
  rw [Serializer.serialize, Serializer.send_form output_form hrun rfl]
  rfl

/-- The payloads of an employee that a form takes, with and without its undeclared fields. -/
theorem exists_of_serialize {e : Employee} (hscalar : ∀ m ∈ e.additional, m.2.scalarText?.isSome)
    {p : Payload} (hp : (({} : Serializer).serialize ContentType.form e).result = .ok p) :
    ∃ pairs : Form.Pairs, (∀ x ∈ pairs, x.1 ∈ flatNames) ∧
      p = ⟨ContentType.form, Form.bytes (pairs ++ Form.kept pairs e.additional)⟩ ∧
      (({} : Serializer).serialize ContentType.form e.bare).result =
        .ok ⟨ContentType.form, Form.bytes pairs⟩ := by
  obtain ⟨_, o, hrun⟩ := Serializer.exists_of_send_ok output_form hp
  have hwrite : (e.write none).runAt () ⟨.form {}, [], []⟩ = ((.ok (), ()), o) :=
    runAt_of_ofUnmarked (w := fun key => e.write key) hrun
  obtain ⟨pairs, hnames, rfl, hbare⟩ := exists_of_write hscalar hwrite
  refine ⟨pairs, hnames, ?_, serialize_of_write hbare⟩
  rw [serialize_of_write hwrite] at hp
  exact (Except.ok.inj hp).symm

/-! ### Reading -/

open FormFields FormNode

def fieldText (p : Payload) (name : String) : Result (Option String) := do
  let root ← ({} : Serializer).root ContentType.form p.bytes
  match ← root.node.child? name with
  | some n => n.text?
  | none => return none

theorem fieldText_bytes {pairs : Form.Pairs} (hne : pairs ≠ []) (contentType name : String) :
    fieldText ⟨contentType, Form.bytes pairs⟩ name =
      .ok ((Members.get? (ofPairs pairs) (Text.lower name)).bind fun x => present? x.text) := by
  have hf : ({} : Serializer).decoders.find ContentType.form = .ok (ContentType.form, .form) := rfl
  have hchild : (Node.form (.ofContent (Form.bytes pairs))).child? name =
      .ok ((Members.get? (ofPairs pairs) (Text.lower name)).map fun x =>
        .form (.scalar ("/" ++ x.key) x.text)) := by
    rw [ofContent, Form.decode_bytes, Node.child?_form]
    rfl
  rw [fieldText, Serializer.root_of_form hf rfl (mt Form.bytes_eq_nil_iff.mp hne)]
  simp only [bind, Except.bind, hchild]
  cases Members.get? (ofPairs pairs) (Text.lower name) with
  | none => rfl
  | some x => exact text?_scalar _ _

/-- More values can be seen in the text of a field. -/
theorem present?_intercalate_eq_iff {text : String} {values : List String} :
    present? (",".intercalate (text :: values)) = present? text ↔ values = [] := by
  cases values with
  | nil => simp
  | cons v values =>
      have hjoined : (",".intercalate (text :: v :: values)).toList =
          text.toList ++ ',' :: (",".intercalate (v :: values)).toList := by
        simp [String.intercalate_cons_cons]
      have hnull : isNull (",".intercalate (text :: v :: values)) = false := by
        refine Bool.eq_false_iff.mpr fun h => comma_not_mem_of_isNull h ?_
        rw [hjoined]
        exact List.mem_append_right _ List.mem_cons_self
      rw [present?_of_not_null hnull, eq_comm, present?_eq_some_iff]
      simp only [reduceCtorEq, iff_false, not_and]
      intro htext
      have hlength := congrArg List.length (congrArg String.toList htext)
      rw [hjoined, List.length_append, List.length_cons] at hlength
      omega

theorem tidy_flatNames : ∀ name ∈ flatNames, Tidy name ∧ Text.lower name ≠ "" := by
  decide +kernel

theorem eq_of_lower_eq {a b : String} (ha : a ∈ flatNames) (hb : b ∈ flatNames)
    (h : Text.lower a = Text.lower b) : a = b := by
  have hnodup : (flatNames.map Text.lower).Nodup := by decide +kernel
  exact List.inj_on_of_nodup_map hnodup ha hb h

/-- A declared field is read back with the text that it has without undeclared fields if and only if
every undeclared key that the reader takes for its name differs from it in letter case within ASCII
at most. -/
theorem form_text_eq_iff {e : Employee} (hscalar : ∀ m ∈ e.additional, m.2.scalarText?.isSome)
    {p : Payload} (hp : (({} : Serializer).serialize ContentType.form e).result = .ok p) :
    ∃ q, (({} : Serializer).serialize ContentType.form e.bare).result = .ok q ∧
      ∀ name ∈ Members.keys (Form.decode q.bytes), name ∈ flatNames ∧
        (fieldText p name = fieldText q name ↔ ∀ key ∈ Members.keys e.additional,
          Text.lower (Text.trim key) = Text.lower name → Text.eqIgnoringCase key name = true) := by
  obtain ⟨pairs, hnames, rfl, hq⟩ := exists_of_serialize hscalar hp
  refine ⟨_, hq, fun name hname => ?_⟩
  rw [Form.decode_bytes] at hname
  obtain ⟨x, hx, rfl⟩ := List.mem_map.mp hname
  have hflat : x.1 ∈ flatNames := hnames x hx
  obtain ⟨htidy, hlower⟩ := tidy_flatNames x.1 hflat
  refine ⟨hflat, ?_⟩
  obtain ⟨f, hf⟩ := exists_get?_ofPairs htidy hlower hx
  have hextended := get?_foldl_addPair hlower hf (Form.kept pairs e.additional)
  have hne : pairs ≠ [] := List.ne_nil_of_mem hx
  rw [fieldText_bytes (List.append_ne_nil_of_left_ne_nil hne _), fieldText_bytes hne, hf,
    ofPairs, List.foldl_append, ← ofPairs, hextended, Option.bind_some, Option.bind_some,
    Except.ok.injEq, present?_intercalate_eq_iff, List.map_eq_nil_iff, List.filter_eq_nil_iff]
  simp only [beq_iff_eq]
  rw [Form.kept_forall_ne_iff, Members.keys, List.forall_mem_map]
  refine forall₂_congr fun m _ => forall_congr' fun hm => ?_
  constructor
  · rintro ⟨y, hy, hshadow⟩
    -- What shadows the key reads the same as the name, and so is the name.
    have hyflat : y.1 ∈ flatNames := hnames y hy
    have hread := Text.lower_eq_of_eqIgnoringCase (Text.eqIgnoringCase_trim hshadow)
    rw [(tidy_flatNames y.1 hyflat).1.1] at hread
    rw [← eq_of_lower_eq hyflat hflat (hread.trans hm), Text.eqIgnoringCase_comm]
    exact hshadow
  · intro h
    exact ⟨x, hx, by rw [Text.eqIgnoringCase_comm]; exact h⟩

def blankKeyed : Employee :=
  ⟨{ id := some "real" }, none, none, [(" id", .string "x")]⟩

/-- Such a key is none of the declared names for the writer, and one of them for the reader. -/
theorem form_text_extended :
    (({} : Serializer).serialize ContentType.form blankKeyed).result =
        .ok ⟨ContentType.form, Bytes.ofString "id=real&+id=x"⟩ ∧
      (({} : Serializer).serialize ContentType.form blankKeyed.bare).result =
        .ok ⟨ContentType.form, Bytes.ofString "id=real"⟩ ∧
      fieldText ⟨ContentType.form, Bytes.ofString "id=real&+id=x"⟩ "id" = .ok (some "real,x") ∧
      fieldText ⟨ContentType.form, Bytes.ofString "id=real"⟩ "id" = .ok (some "real") :=
  ⟨rfl, rfl, rfl, rfl⟩

def shadowing : Employee :=
  ⟨{ id := some "real" }, none, none, [("ID", .string "x"), ("note", .bool true)]⟩

theorem form_text_eq_iff_shadowing :
    (({} : Serializer).serialize ContentType.form shadowing).result =
        .ok ⟨ContentType.form, Bytes.ofString "id=real&note=true"⟩ ∧
      fieldText ⟨ContentType.form, Bytes.ofString "id=real&note=true"⟩ "id" =
        fieldText ⟨ContentType.form, Bytes.ofString "id=real"⟩ "id" := by
  have hp : (({} : Serializer).serialize ContentType.form shadowing).result =
      .ok ⟨ContentType.form, Bytes.ofString "id=real&note=true"⟩ := rfl
  obtain ⟨q, hq, hread⟩ := form_text_eq_iff (e := shadowing) (by decide) hp
  have hbare : (({} : Serializer).serialize ContentType.form shadowing.bare).result =
      .ok ⟨ContentType.form, Bytes.ofString "id=real"⟩ := rfl
  obtain rfl := Except.ok.inj (hq.symm.trans hbare)
  exact ⟨hp, (hread "id" (by decide +kernel)).2.mpr (by decide +kernel)⟩

end Employee

end Marshal
