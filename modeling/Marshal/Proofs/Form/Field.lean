import Marshal.Proofs.Field
import Marshal.Proofs.Form.Codec
import Marshal.Proofs.Receiving
import Marshal.Proofs.Writing.Form

/-!
The flat fields of a model in a form, and whole forms on their way out.
-/

namespace Marshal

/-! ### The nodes of a form -/

def FormFields.nodes (fields : FormFields) : Members Node :=
  fields.map fun x => (x.2.key, .form (.scalar ("/" ++ x.2.key) x.2.text))

theorem Node.members?_form (fields : FormFields) :
    (Node.form (.fields fields)).members? = .ok (some fields.nodes) := by
  simp only [members?, FormNode.members?, FormFields.list, bind, Except.bind, pure, Except.pure,
    Option.map_some, List.map_map]
  rfl

theorem Node.child?_form (fields : FormFields) (key : String) :
    (Node.form (.fields fields)).child? key =
      .ok ((fields.find? key).map fun x => .form (.scalar ("/" ++ x.key) x.text)) := by
  simp only [child?, FormNode.child?, bind, Except.bind, pure, Except.pure, Option.map_map]
  rfl

/-- A flat model that is read from a form without layers. -/
theorem Parsable.readAt_form {α : Type} [Parsable α] {c : Reading.Context α}
    (hlayers : c.layers = []) (hres : ∀ n f, c.resolve n f = f) {fields : FormFields} {k : Nat}
    {a b : α} (hcreate : create (.form (.fields fields)) = .ok a)
    (h : fields.nodes.foldlM (assign (fieldReaders (readAt c k create) a)) a = pure b) :
    readAt c (k + 1) create (.form (.fields fields)) = pure (some b) := by
  rw [readAt_succ, Node.members?_form, ReadM.ofResult_ok, pure_bind]
  simp only [hres, hcreate, ReadM.ofResult_ok, pure_bind, hlayers, assignAll, List.foldlM_nil, h]

namespace Field

variable {α : Type} {p q : α} {fs : List (Field α)} {groups : Members (List String)}

/-- Fields with names of their own are each read by their own reader. -/
theorem get?_readers (h : (fs.map (·.name)).Nodup) {f : Field α} (hf : f ∈ fs) :
    (readers fs).get? f.name = some f.reader := by
  have hkeys : (Members.keys (fs.map fun f => (f.name, f.reader))).Nodup := by
    simpa [Members.keys, Function.comp_def] using h
  rw [readers, FieldReaders.ofList, Members.ofPairs_of_nodup hkeys]
  exact Members.get?_of_mem hkeys (p := (f.name, f.reader)) (List.mem_map_of_mem hf)

/-- The texts of a field: writing it from `p` puts them there, and reading them gives what `q` has.
-/
structure Spells (p q : α) (f : Field α) (g : String × List String) : Prop where
  name : g.1 = f.name
  codec : f.codec.Spells (f.get p) g.2 (f.get q)

theorem appends_scripts (h : List.Forall₂ (Spells p q) fs groups) :
    Script.Appends (scripts fs p) (Form.spread groups) := by
  induction h with
  | nil => exact Script.appends_nil
  | @cons f g fs groups hg _ ih =>
      obtain ⟨name, texts⟩ := g
      obtain rfl : name = f.name := hg.name
      exact Script.Appends.append (hg.codec.appends f.name) ih

/-- Reading the fields that the texts become takes the values of `q`. -/
theorem foldlM_nodes [Parsable α] {readers : FieldReaders α} {a b : α} (hset : Settles q fs a b)
    (hgroups : List.Forall₂ (Spells p q) fs groups)
    (hreaders : ∀ f ∈ fs, readers.get? f.name = some f.reader) :
    (FormFields.nodes (groups.flatMap FormFields.ofGroup)).foldlM (Parsable.assign readers) a =
      pure b := by
  induction hgroups generalizing a with
  | nil =>
      cases hset
      rfl
  | @cons f g fs groups hg _ ih =>
      obtain ⟨name, texts⟩ := g
      obtain rfl : name = f.name := hg.name
      cases hset with
      | cons habsent hset =>
        have hrest := fun f' hf' => hreaders f' (List.mem_cons_of_mem f hf')
        by_cases htexts : texts = []
        · -- Nothing is read, and the value already has nothing in this field.
          rw [hg.codec.absent htexts, habsent] at hset
          rw [List.flatMap_cons, FormFields.ofGroup, if_pos htexts, List.nil_append]
          exact ih hset hrest
        · have hassign : Parsable.assign readers a (f.name,
              .form (.scalar ("/" ++ f.name) (",".intercalate texts))) =
              pure (f.set (f.get q) a) := by
            have hread := hg.codec.reads ("/" ++ f.name) htexts
            simp only [Parsable.assign, hreaders f List.mem_cons_self, on_reader, hread,
              ReadM.ofResult_ok, pure_bind]
          rw [List.flatMap_cons, FormFields.ofGroup, if_neg htexts]
          show (Parsable.assign readers a (f.name,
            .form (.scalar ("/" ++ f.name) (",".intercalate texts))) >>= _) = _
          rw [hassign, pure_bind]
          exact ih hset hrest

/-- Fields that are written leave nothing but what stands under their names. -/
theorem exists_of_run_scripts (h : ∀ f ∈ fs, f.codec.Spreads) {a : α} {d : FormDraft} (hd : d.Open)
    {x : AnyDraft} (hrun : Draft.run (scripts fs a) (AnyDraft.form d) = (.ok (), x)) :
    ∃ pairs : Form.Pairs, x = .form (d.extend pairs) ∧ ∀ p ∈ pairs, p.1 ∈ fs.map (·.name) := by
  induction fs generalizing d with
  | nil =>
      refine ⟨[], ?_, List.forall_mem_nil _⟩
      rw [FormDraft.extend_nil]
      exact (congrArg Prod.snd hrun).symm
  | cons f fs ih =>
      obtain ⟨hf, hfs⟩ := List.forall_mem_cons.mp h
      have happend : scripts (f :: fs) a = f.script a ++ scripts fs a := List.flatMap_cons
      obtain ⟨result, y, hfirst⟩ : ∃ result y,
          Draft.run (f.script a) (AnyDraft.form d) = (result, y) := ⟨_, _, rfl⟩
      rw [happend, Draft.run_append, hfirst] at hrun
      cases result with
      | error e => cases hrun
      | ok _ =>
          obtain ⟨texts, rfl⟩ := hf f.name _ d y hd hfirst
          obtain ⟨pairs, rfl, hnames⟩ := ih hfs (hd.extend _) hrun
          refine ⟨texts.map (f.name, ·) ++ pairs, by rw [FormDraft.extend_extend], ?_⟩
          rw [List.forall_mem_append]
          refine ⟨List.forall_mem_map.mpr fun t _ => List.mem_cons_self, fun p hp => ?_⟩
          exact List.mem_cons_of_mem _ (hnames p hp)

end Field

namespace Serializer

variable {α : Type}

/-- A form that is written is the whole payload. -/
theorem send_form {s : Serializer} {contentType : String} {o o' : Output} {d : FormDraft}
    (ho : s.output contentType = .ok o) {act : WriteM (Result Unit × α)} {b : α}
    (h : act.run o = ((.ok (), b), o')) (hd : o'.draft = .form d) (a : α)
    (payloadType? : α → Option String) :
    s.send contentType a payloadType? act =
      ⟨.ok ⟨(payloadType? b).getD ContentType.form, Form.bytes d.pairs⟩, b, o'.log⟩ := by
  obtain ⟨draft, layers, log⟩ := o'
  obtain rfl : draft = .form d := hd
  rw [send, ho]
  simp only [h]
  rfl

end Serializer

end Marshal
