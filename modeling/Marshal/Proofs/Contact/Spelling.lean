import Marshal.Proofs.Form.Names
import Marshal.Proofs.Reading.Filling
import Marshal.Proofs.Reading.Run
import Marshal.Proofs.Receiving

/-!
Contacts from forms whose names differ in letter case. A field is dispatched by the spelling that
came first, so only the spellings of the declared names matter.
-/

namespace Marshal

namespace Contact

theorem get?_readers_eq_none {key : String} (h : key ∉ fields.map (·.name)) :
    (Field.readers fields).get? key = none :=
  Members.get?_eq_none_iff.mpr h

/-- A field that is not declared is dropped. -/
theorem assign_of_undeclared {m : String × Node} (h : m.1 ∉ fields.map (·.name)) (c : Contact) :
    Parsable.assign (Field.readers fields) c m = pure c := by
  rw [Parsable.assign, get?_readers_eq_none h]
  rfl

open FormFields

def fieldNode (x : FormField) : String × Node :=
  (x.key, .form (.scalar ("/" ++ x.key) x.text))

section

variable {these those : FormFields}

/-- The only field under the name of a declared spelling is the one that has it. -/
theorem key_eq_of_mem_spellings {x y : String × FormField} (h : Grouped these) (h' : Grouped those)
    (hx : x ∈ these) (hy : y ∈ those) (hxy : x.1 = y.1) (hkey : x.2.key ∈ those.spellings) :
    y.2.key = x.2.key := by
  obtain ⟨z, hz, hzkey⟩ := List.mem_map.mp hkey
  obtain ⟨p, hp, rfl⟩ := List.mem_map.mp hz
  have hname : p.1 = y.1 := by
    rw [h'.lower p hp, hzkey, ← h.lower x hx, hxy]
  have hp' := Members.get?_of_mem h'.nodup hp
  rw [hname, Members.get?_of_mem h'.nodup hy] at hp'
  rw [Option.some.inj hp', hzkey]

theorem assign_alike {x y : String × FormField} (h : Grouped these) (h' : Grouped those)
    (hnames : ∀ name ∈ fields.map (·.name), name ∈ these.spellings ↔ name ∈ those.spellings)
    (hx : x ∈ these) (hy : y ∈ those) (hxy : x.1 = y.1) (htext : x.2.text = y.2.text)
    (c : Contact) :
    Parsable.assign (Field.readers fields) c (fieldNode x.2) =
      Parsable.assign (Field.readers fields) c (fieldNode y.2) := by
  have hspelling (fs : FormFields) (z : String × FormField) (hz : z ∈ fs) :
      z.2.key ∈ fs.spellings :=
    List.mem_map_of_mem (List.mem_map_of_mem hz)
  by_cases hdx : x.2.key ∈ fields.map (·.name)
  · have hkey : y.2.key = x.2.key :=
      key_eq_of_mem_spellings h h' hx hy hxy ((hnames _ hdx).mp (hspelling these x hx))
    rw [fieldNode, fieldNode, hkey, htext]
  · by_cases hdy : y.2.key ∈ fields.map (·.name)
    · have hkey : x.2.key = y.2.key :=
        key_eq_of_mem_spellings h' h hy hx hxy.symm ((hnames _ hdy).mpr (hspelling those y hy))
      exact absurd (hkey ▸ hdy) hdx
    · rw [assign_of_undeclared hdx, assign_of_undeclared hdy]

theorem foldlM_alike (h : Grouped these) (h' : Grouped those) (ha : Alike these those)
    (hnames : ∀ name ∈ fields.map (·.name), name ∈ these.spellings ↔ name ∈ those.spellings)
    (c : Contact) :
    (these.list.map fieldNode).foldlM (Parsable.assign (Field.readers fields)) c =
      (those.list.map fieldNode).foldlM (Parsable.assign (Field.readers fields)) c := by
  have hassign : List.Forall₂ (fun x y => ∀ c,
      Parsable.assign (Field.readers fields) c (fieldNode x.2) =
        Parsable.assign (Field.readers fields) c (fieldNode y.2)) these those := by
    obtain ⟨hlength, hget⟩ := List.forall₂_iff_get.mp ha
    refine List.forall₂_iff_get.mpr ⟨hlength, fun i hi hj => ?_⟩
    obtain ⟨hname, htext⟩ := hget i hi hj
    exact assign_alike h h' hnames (List.get_mem ..) (List.get_mem ..) hname htext
  simp only [list, List.map_map, List.foldlM_map, Function.comp_apply]
  clear h h' ha hnames
  induction hassign generalizing c with
  | nil => rfl
  | cons hxy _ ih =>
      rw [List.foldlM_cons, List.foldlM_cons, hxy c]
      exact bind_congr ih

end

theorem readAt_alike {c : Reading.Context Contact} (hres : ∀ n f, c.resolve n f = f)
    {these those : FormFields} (h : Grouped these) (h' : Grouped those) (ha : Alike these those)
    (hnames : ∀ name ∈ fields.map (·.name), name ∈ these.spellings ↔ name ∈ those.spellings)
    (k : Nat) :
    Parsable.readAt c k Parsable.create (.form (.fields these)) =
      Parsable.readAt c k Parsable.create (.form (.fields those)) := by
  cases k with
  | zero => rfl
  | succ k =>
      have hmembers (fs : FormFields) : (Node.form (.fields fs)).members? =
          .ok (some (fs.list.map fieldNode)) := by
        simp only [Node.members?, FormNode.members?, bind, Except.bind, pure, Except.pure,
          Option.map_some, List.map_map]
        rfl
      simp only [Parsable.readAt_succ, hmembers, hres, ReadM.ofResult_ok, pure_bind,
        Parsable.assignAll]
      have hfold (a : Contact) :
          (these.list.map fieldNode).foldlM (Parsable.assign (Parsable.fieldReaders
            (Parsable.readAt c k Parsable.create) a)) a =
          (those.list.map fieldNode).foldlM (Parsable.assign (Parsable.fieldReaders
            (Parsable.readAt c k Parsable.create) a)) a := foldlM_alike h h' ha hnames a
      simp only [hfold]
      rfl

/-- Forms that differ in the letter case of names only are read as the same contact, or fail in the
same way, if the same declared names are spelled as they are declared. -/
theorem deserialize_recased {s : Serializer} {contentType key : String} {d : Decoder}
    (hf : s.decoders.find contentType = .ok (key, d)) (hd : d.format = .form)
    (hm : s.discriminators.mapping? .contact = none) {content other : Bytes}
    (hempty : content = [] ↔ other = [])
    (hrecased : Form.Recased (Form.decode content) (Form.decode other))
    (hnames : ∀ name ∈ fields.map (·.name),
      name ∈ (ofPairs (Form.decode content)).spellings ↔
        name ∈ (ofPairs (Form.decode other)).spellings) :
    (s.deserialize .contact contentType content Parsable.create).exec =
      (s.deserialize .contact contentType other Parsable.create).exec := by
  by_cases hnil : content = []
  · rw [hnil, hempty.mp hnil]
  · have hread := readAt_alike (c := s.context .contact ⟨.form (.ofContent content), d.layers⟩)
      (fun n f => Discriminators.resolve_of_none hm n f) (grouped_ofPairs (Form.decode content))
      (grouped_ofPairs (Form.decode other)) (alike_ofPairs hrecased) hnames 2
    rw [Serializer.deserialize, Serializer.deserialize, Serializer.root_of_form hf hd hnil,
      Serializer.root_of_form hf hd (mt hempty.mpr hnil), ReadM.ofResult_ok, ReadM.ofResult_ok,
      pure_bind, pure_bind]
    exact congrArg ReadM.exec hread

theorem deserialize_recased_jane :
    (({} : Serializer).deserialize .contact ContentType.form
      (Bytes.ofString "NOTE=1&name=Jane&AGE=7") Parsable.create).exec =
    (({} : Serializer).deserialize .contact ContentType.form
      (Bytes.ofString "note=1&name=Jane&Age=7") Parsable.create).exec := by
  have hf : Decoders.stock.find ContentType.form = .ok (ContentType.form, .form) := rfl
  have hrecased : Form.Recased (Form.decode (Bytes.ofString "NOTE=1&name=Jane&AGE=7"))
      (Form.decode (Bytes.ofString "note=1&name=Jane&Age=7")) := by
    show Form.Recased [("NOTE", "1"), ("name", "Jane"), ("AGE", "7")]
      [("note", "1"), ("name", "Jane"), ("Age", "7")]
    simp [Form.Recased, Text.eqIgnoringCase]
  have hempty : Bytes.ofString "NOTE=1&name=Jane&AGE=7" = [] ↔
      Bytes.ofString "note=1&name=Jane&Age=7" = [] := by decide +kernel
  have hnames : ∀ name ∈ fields.map (·.name),
      name ∈ (ofPairs (Form.decode (Bytes.ofString "NOTE=1&name=Jane&AGE=7"))).spellings ↔
        name ∈ (ofPairs (Form.decode (Bytes.ofString "note=1&name=Jane&Age=7"))).spellings := by
    decide +kernel
  have hm : ({} : Serializer).discriminators.mapping? .contact = none := rfl
  exact deserialize_recased (s := {}) hf rfl hm hempty hrecased hnames

/-- A declared name that is not spelled as declared: its field is dropped. -/
theorem deserialize_name_respelled :
    Form.Recased (Form.decode (Bytes.ofString "Name=Jane"))
      (Form.decode (Bytes.ofString "name=Jane")) ∧
    (({} : Serializer).deserialize .contact ContentType.form (Bytes.ofString "Name=Jane")
      Parsable.create).exec = (.ok (some {}), []) ∧
    (({} : Serializer).deserialize .contact ContentType.form (Bytes.ofString "name=Jane")
      Parsable.create).exec = (.ok (some { name := some "Jane" }), []) :=
  ⟨.cons ⟨by decide, rfl⟩ .nil, rfl, rfl⟩

end Contact

end Marshal
