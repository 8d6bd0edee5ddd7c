import Marshal.Proofs.Employee.Json
import Marshal.Proofs.Sending

/-!
Writing employees to JSON: what comes out is the object of `Employee.json` and nothing else.
-/

namespace Marshal

namespace Employee

open Writing

/-- The value that an employee is written as, wherever there is room for it. -/
def WrittenAs (e : Employee) (v : Json) : Prop :=
  ∀ key, WriteM.Puts [] ((e.write key).exec ()) key () v

/-- An employee is written as its object, wherever there is room for it. -/
def PutsJson (e : Employee) : Prop :=
  ∀ key, WriteM.Puts [] ((e.write key).exec ()) key () e.json

theorem adds_writeManager {manager : Option Employee} {v : Option Json}
    (h : Option.Rel WrittenAs manager v) :
    Adds [] (writeManager manager) () () (v.toList.map ("manager", ·)) := by
  cases h with
  | none => exact adds_pure ()
  | some h =>
      intro members d key log
      exact h (some "manager") _ _ log (JsonDraft.put_inObject ..)

theorem writeEach_inArray {es : List Employee} {vs : List Json} (h : List.Forall₂ WrittenAs es vs)
    (d : JsonDraft) (key : Option String) (items : List Json) (log : Log) :
    (writeEach es).runAt () ⟨.json (d.inArray key items), [], log⟩ =
      ((.ok (), ()), ⟨.json (d.inArray key (items ++ vs)), [], log⟩) := by
  induction h generalizing items with
  | nil =>
      rw [List.append_nil]
      rfl
  | cons he _ ih =>
      have hrun := he none (d.inArray key items) _ log (JsonDraft.put_inArray ..)
      rw [writeEach, runAt_bind_ok hrun, ih, List.append_assoc, List.singleton_append]

theorem adds_writeColleagues {colleagues : Option (List Employee)} {vs : Option (List Json)}
    (h : Option.Rel (List.Forall₂ WrittenAs) colleagues vs) :
    Adds [] (writeColleagues colleagues) () ()
      (vs.toList.map fun vs => ("colleagues", .array vs)) := by
  cases h with
  | none => exact adds_pure ()
  | @some es vs h =>
      intro members d key log
      have hstart : (call (.startCollection (some "colleagues")) : Writing Unit Unit).runAt ()
          ⟨.json (d.inObject key members), [], log⟩ =
          ((.ok (), ()), ⟨.json ((d.inObject key members).inArray (some "colleagues") []), [],
            log⟩) := by
        rw [runAt_call, AnyDraft.startCollection_json]
      have heach := writeEach_inArray h (d.inObject key members) (some "colleagues") [] log
      rw [writeColleagues, runAt_bind_ok hstart, runAt_bind_ok heach, runAt_call, List.nil_append,
        AnyDraft.endCollection_json, JsonDraft.put_inObject]
      rfl

theorem addsTo_writeAdditional {data : AdditionalData} (hdistinct : ∀ m ∈ data, m.2.Distinct)
    (hnames : (Members.keys data).Nodup) {members : Members Json} (hmembers : members.keys.Nodup) :
    AddsTo [] members (perform (Output.writeAdditional data)) () ()
      (AdditionalData.json (data.besides members.keys)) := by
  intro d key log
  rw [runAt_perform, Output.run_writeAdditional, AdditionalData.writeAdditional_eq hdistinct hnames,
    Members.putAll_of_nodup (AdditionalData.nodup_keys_besides hmembers hnames)]

theorem write_eq (e : Employee) (key : Option String) :
    e.write key = plainObject key (some e.additional.length) (do
      script (Field.scripts Particulars.fields e.particulars)
      writeManager e.manager
      writeColleagues e.colleagues
      perform (Output.writeAdditional e.additional)) := by
  obtain ⟨particulars, manager, colleagues, additional⟩ := e
  rfl

/-- One level: what is written within the employees around it is taken for granted. -/
theorem writtenAs_object {e : Employee} {rows : List Field.Row} {manager : Option Json}
    {colleagues : Option (List Json)}
    (hrows : (Field.scripts Particulars.fields e.particulars).Adds (Field.present rows))
    (hmanager : Option.Rel WrittenAs e.manager manager)
    (hcolleagues : Option.Rel (List.Forall₂ WrittenAs) e.colleagues colleagues)
    (hdistinct : ∀ m ∈ e.additional, m.2.Distinct) (hnames : (Members.keys e.additional).Nodup)
    (hown : (Members.keys (declaredMembers rows manager colleagues)).Nodup) :
    e.WrittenAs (.object (declaredMembers rows manager colleagues ++ AdditionalData.json
      (e.additional.besides (Members.keys (declaredMembers rows manager colleagues))))) := by
  intro key
  -- Members are put one by one, and a name that is put twice is overwritten: the object has all of
  -- them in their order because no name stands twice.
  have hself : Members.putAll [] (declaredMembers rows manager colleagues) =
      declaredMembers rows manager colleagues := Members.putAll_of_nodup (m := []) hown
  have hadditional := addsTo_writeAdditional hdistinct hnames hown
  have hnodup := AdditionalData.nodup_keys_besides hown hnames
  generalize AdditionalData.json (e.additional.besides
    (Members.keys (declaredMembers rows manager colleagues))) = extra at hadditional hnodup ⊢
  have hall : Members.ofPairs (declaredMembers rows manager colleagues ++ extra) =
      declaredMembers rows manager colleagues ++ extra :=
    Members.ofPairs_of_nodup (by simpa [Members.keys] using hnodup)
  rw [← hself, declaredMembers, Members.putAll_append, Members.putAll_append] at hadditional
  have hfields := (adds_script hrows () []).bind ((adds_writeManager hmanager _).bind
    ((adds_writeColleagues hcolleagues _).bind hadditional))
  have hobj := puts_object Layer.quiet_nil key .model
    (fun _ => { extra := some e.additional.length }) (fun _ a => a) hfields
  rw [write_eq, ← hall, declaredMembers, List.append_assoc, List.append_assoc]
  exact hobj

/-- An employee without names that clash is written as its object. -/
theorem Expressible.putsJson {e : Employee} (h : e.Expressible)
    (hmanager : ∀ m ∈ e.manager, m.PutsJson)
    (hcolleagues : ∀ es ∈ e.colleagues, ∀ c ∈ es, c.PutsJson) : e.PutsJson := by
  have hm : Option.Rel WrittenAs e.manager (e.manager.map json) := by
    cases hmem : e.manager with
    | none => exact .none
    | some m => exact .some (hmanager m hmem)
  have hc : Option.Rel (List.Forall₂ WrittenAs) e.colleagues (e.colleagues.map (·.map json)) := by
    cases hmem : e.colleagues with
    | none => exact .none
    | some es =>
        refine .some (List.forall₂_map_right_iff.mpr (List.forall₂_same.mpr fun c hc => ?_))
        exact hcolleagues es hmem c hc
  have hwritten := writtenAs_object (Field.adds_scripts_of_writes h.particulars.writes) hm hc
    (fun m hm => (h.sound m hm).distinct) h.names
    (by rw [← ownMembers_eq]; exact nodup_declared.sublist e.keys_ownMembers)
  rw [← ownMembers_eq, AdditionalData.besides_eq_self fun key hkey hown =>
    h.undeclared key hkey (e.keys_ownMembers.subset hown), ← json_eq] at hwritten
  exact hwritten

theorem putsJson {e : Employee} (h : e.Everywhere Expressible) : e.PutsJson := by
  induction h with
  | mk self _ _ hmanager hcolleagues => exact self.putsJson hmanager hcolleagues

end Employee

end Marshal
