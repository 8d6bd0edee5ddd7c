import Mathlib.Data.List.Pairwise
import Marshal.Proofs.Employee.Reading
import Marshal.Proofs.Reading.Reordered

/-!
Reading employees whose members come in any order. Every member has a place of its own in the
employee.
-/

namespace Marshal

open ReadM

/-- The fields can be set in either order if they have different names. -/
def Field.Apart {α : Type} (f g : Field α) : Prop :=
  f.name ≠ g.name → ∀ v w a, f.set v (g.set w a) = g.set w (f.set v a)

instance {α : Type} : Std.Symm (Field.Apart (α := α)) where
  symm _ _ h hne v w a := (h hne.symm w v a).symm

theorem Particulars.apart {f g : Field Particulars} (hf : f ∈ fields) (hg : g ∈ fields) :
    f.Apart g := by
  have hpairs : fields.Pairwise Field.Apart := by
    rw [fields]
    repeat' first
      | exact .nil
      | exact fun _ _ _ _ => rfl
      | refine .cons (List.forall_mem_cons.mpr ?_) ?_
      | refine .cons (List.forall_mem_nil _) ?_
      | refine ⟨?_, List.forall_mem_cons.mpr ?_⟩
      | refine ⟨?_, List.forall_mem_nil _⟩
  exact hpairs.forall_of_forall (fun _ _ hne => absurd rfl hne) hf hg

namespace Employee

/-- The same employee, but for the order of its undeclared fields. -/
structure Shuffled (e e' : Employee) : Prop where
  particulars : e.particulars = e'.particulars
  manager : e.manager = e'.manager
  colleagues : e.colleagues = e'.colleagues
  additional : ∀ key, Members.get? e.additional key = Members.get? e'.additional key

theorem Shuffled.symm {e e' : Employee} (h : e.Shuffled e') : e'.Shuffled e :=
  ⟨h.particulars.symm, h.manager.symm, h.colleagues.symm, fun key => (h.additional key).symm⟩

theorem Shuffled.trans {e e' e'' : Employee} (h : e.Shuffled e') (h' : e'.Shuffled e'') :
    e.Shuffled e'' :=
  ⟨h.particulars.trans h'.particulars, h.manager.trans h'.manager,
    h.colleagues.trans h'.colleagues, fun key => (h.additional key).trans (h'.additional key)⟩

theorem Shuffled.refl (e : Employee) : e.Shuffled e :=
  ⟨rfl, rfl, rfl, fun _ => rfl⟩

inductive Update : String → (Employee → Employee) → Prop
  | field {f : Field Particulars} (hf : f ∈ Particulars.fields) (v : Option f.Value) :
      Update f.name fun e => particularsView.set (f.set v e.particulars) e
  | manager (m : Option Employee) : Update "manager" (setManager m)
  | colleagues (c : Option (List Employee)) : Update "colleagues" (setColleagues c)
  | keep {name : String} (hname : name ∉ declared) (v : Untyped) :
      Update name (Employee.keep name v)

theorem Update.shuffled {name : String} {u : Employee → Employee} (hu : Update name u)
    {e e' : Employee} (h : e.Shuffled e') : (u e).Shuffled (u e') := by
  obtain ⟨p, m, c, a⟩ := e
  obtain ⟨_, _, _, a'⟩ := e'
  obtain ⟨rfl, rfl, rfl, hadditional⟩ := h
  cases hu with
  | field hf v => exact ⟨rfl, rfl, rfl, hadditional⟩
  | manager m => exact ⟨rfl, rfl, rfl, hadditional⟩
  | colleagues c => exact ⟨rfl, rfl, rfl, hadditional⟩
  | keep hname v =>
      refine ⟨rfl, rfl, rfl, fun key => ?_⟩
      show Members.get? (Members.put a name v) key = Members.get? (Members.put a' name v) key
      by_cases hkey : key = name
      · rw [hkey, Members.get?_put_self, Members.get?_put_self]
      · rw [Members.get?_put_of_ne hkey, Members.get?_put_of_ne hkey]
        exact hadditional key

/-- Members of different names do not get in each other's way. -/
theorem Update.swap {name name' : String} (hne : name ≠ name') {u v : Employee → Employee}
    (hu : Update name u) (hv : Update name' v) (e : Employee) : (v (u e)).Shuffled (u (v e)) := by
  obtain ⟨p, m, c, a⟩ := e
  cases hu with
  | field hf x =>
      cases hv with
      | field hg y => exact ⟨Particulars.apart hg hf hne.symm y x p, rfl, rfl, fun _ => rfl⟩
      | _ => exact ⟨rfl, rfl, rfl, fun _ => rfl⟩
  | manager m =>
      cases hv with
      | manager => exact absurd rfl hne
      | _ => exact ⟨rfl, rfl, rfl, fun _ => rfl⟩
  | colleagues c =>
      cases hv with
      | colleagues => exact absurd rfl hne
      | _ => exact ⟨rfl, rfl, rfl, fun _ => rfl⟩
  | keep hname x =>
      cases hv with
      | keep hname' y =>
          refine ⟨rfl, rfl, rfl, fun key => ?_⟩
          show Members.get? (Members.put (Members.put a name x) name' y) key =
            Members.get? (Members.put (Members.put a name' y) name x) key
          by_cases hkey : key = name
          · rw [hkey, Members.get?_put_of_ne hne, Members.get?_put_self, Members.get?_put_self]
          · by_cases hkey' : key = name'
            · rw [hkey', Members.get?_put_self, Members.get?_put_of_ne hne.symm,
                Members.get?_put_self]
            · simp only [Members.get?_put_of_ne hkey, Members.get?_put_of_ne hkey']
      | _ => exact ⟨rfl, rfl, rfl, fun _ => rfl⟩

/-- The same employee at every level, where undeclared fields compare as maps. -/
inductive Same : Employee → Employee → Prop
  | mk {e e' : Employee} (particulars : e.particulars = e'.particulars)
      (manager : Option.Rel Same e.manager e'.manager)
      (colleagues : Option.Rel (List.Forall₂ Same) e.colleagues e'.colleagues)
      (additional : ∀ key, Option.Rel (fun v w => v.same w = true)
        (Members.get? e.additional key) (Members.get? e'.additional key)) : Same e e'

theorem Same.of_shuffled {e e' e'' : Employee} (h : e.Same e') (h' : e'.Shuffled e'') :
    e.Same e'' := by
  obtain ⟨hp, hm, hc, ha⟩ := h
  refine ⟨hp.trans h'.particulars, h'.manager ▸ hm, h'.colleagues ▸ hc, fun key => ?_⟩
  rw [← h'.additional key]
  exact ha key

theorem Same.keep {e e' : Employee} (h : e.Same e') (name : String) {v w : Untyped}
    (hvw : v.same w = true) : (e.keep name v).Same (e'.keep name w) := by
  obtain ⟨p, m, c, a⟩ := e
  obtain ⟨_, m', c', a'⟩ := e'
  obtain ⟨rfl, hm, hc, ha⟩ := h
  refine ⟨rfl, hm, hc, fun key => ?_⟩
  show Option.Rel _ (Members.get? (Members.put a name v) key)
    (Members.get? (Members.put a' name w) key)
  by_cases hkey : key = name
  · rw [hkey, Members.get?_put_self, Members.get?_put_self]
    exact .some hvw
  · rw [Members.get?_put_of_ne hkey, Members.get?_put_of_ne hkey]
    exact ha key

section

variable {self : Node → ReadM (Option Employee)} (hself : ∀ n, Steady (self n))
include hself

theorem steady_readAll? (n : Node) : Steady (Parsable.readAll? self n) := by
  refine (steady_ofResult _).bind fun found => ?_
  cases found with
  | none => exact steady_pure none
  | some ns => exact (steady_mapM hself ns).bind fun es => steady_pure _

theorem updates_assign (o : Employee) (m : String × Node) :
    Updates (fun _ => True) (Update m.1) fun e =>
      Parsable.assign (Parsable.fieldReaders self o) e m := by
  rw [fieldReaders_eq]
  rcases readers_cases self m.1 with ⟨f, hf, hname, hreader⟩ | ⟨hname, hreader⟩ |
    ⟨hname, hreader⟩ | ⟨hname, hreader⟩ <;>
    simp only [Parsable.assign, hreader, on_managerReader, on_colleaguesReader]
  · rw [← hname]
    refine ⟨_, ofResult (f.codec.read? m.2), _, steady_ofResult _, fun v => .field hf v, ?_⟩
    intro e _
    simp only [FieldReaders.on_lift, particularsView, Field.on_reader, bind_assoc, pure_bind]
  · rw [hname]
    exact ⟨_, self m.2, _, hself m.2, .manager, fun _ _ => rfl⟩
  · rw [hname]
    exact ⟨_, Parsable.readAll? self m.2, _, steady_readAll? hself m.2, .colleagues, fun _ _ => rfl⟩
  · exact ⟨Unit, pure (), _, steady_pure (), fun _ => .keep hname m.2.untyped, fun _ _ => rfl⟩

end

/-- Members of different names can be assigned in either order. -/
theorem agree_assign_perm {self : Node → ReadM (Option Employee)} (hself : ∀ n, Steady (self n))
    (o e : Employee) {ms ns : Members Node} (hperm : ms.Perm ns) (hms : ms.keys.Nodup) :
    Agree Shuffled (ms.foldlM (Parsable.assign (Parsable.fieldReaders self o)) e)
      (ns.foldlM (Parsable.assign (Parsable.fieldReaders self o)) e) := by
  refine agree_foldlM_perm (E := Shuffled) (fun _ _ => Shuffled.symm) (fun _ _ _ => Shuffled.trans)
    (fun m e e' he => ?_) (A := fun m n => m.1 ≠ n.1) (fun _ _ => Ne.symm)
    (fun m n hne e e' he => ?_) hperm (List.pairwise_map.mp hms) (.refl e)
  · exact (updates_assign hself o m).agree (fun _ _ _ => ⟨trivial, trivial⟩)
      (fun u hu _ _ => hu.shuffled) he
  · refine (updates_assign hself o m).agree_swap (updates_assign hself o n)
      (fun _ _ _ => ⟨trivial, trivial⟩) (fun _ _ _ _ => trivial) (fun _ _ _ _ => trivial)
      (fun u v hu hv e e' he => ?_) he
    exact (Update.swap hne hu hv e).trans (hu.shuffled (hv.shuffled he))

theorem orderless_fields : ∀ f ∈ Particulars.fields, f.codec.Orderless := by
  simp only [Particulars.fields, List.forall_mem_cons]
  open Codec in
  exact ⟨orderless_codec _, orderless_codec _, orderless_codec _, orderless_codec _,
    orderless_codec _, orderless_codec _, orderless_codec _, orderless_codec _, orderless_codec _,
    orderless_codec _, orderless_codec _, orderless_codec _, orderless_codec _, orderless_codec _,
    orderless_codec _, orderless_codec _, orderless_enum _, orderless_enum _, orderless_listCodec _,
    orderless_listCodec _, orderless_enumList _, List.forall_mem_nil _⟩

/-- Twins leave employees the same. -/
theorem agree_assign {self : Node → ReadM (Option Employee)}
    (hself : ∀ n m : Node, n.Twin m → Agree (Option.Rel Same) (self n) (self m)) (o o' : Employee)
    {x y : String × Node} (hxy : x.1 = y.1 ∧ x.2.Twin y.2) {e e' : Employee} (he : e.Same e') :
    Agree Same (Parsable.assign (Parsable.fieldReaders self o) e x)
      (Parsable.assign (Parsable.fieldReaders self o') e' y) := by
  obtain ⟨name, n⟩ := x
  obtain ⟨_, m⟩ := y
  obtain ⟨rfl, hnm⟩ := hxy
  rw [fieldReaders_eq, fieldReaders_eq]
  rcases readers_cases self name with ⟨f, hf, hname, hreader⟩ | ⟨hname, hreader⟩ |
    ⟨hname, hreader⟩ | ⟨hname, hreader⟩ <;>
    simp only [Parsable.assign, hreader, on_managerReader, on_colleaguesReader]
  · simp only [FieldReaders.on_lift, particularsView, Field.on_reader, bind_assoc, pure_bind]
    refine (orderless_fields f hf n m hnm).bind_pure fun v w hvw => ?_
    obtain ⟨p, q, c, a⟩ := e
    obtain ⟨_, q', c', a'⟩ := e'
    obtain ⟨rfl, hm, hc, ha⟩ := he
    subst hvw
    exact ⟨rfl, hm, hc, ha⟩
  · refine (hself n m hnm).bind_pure fun found found' hfound => ?_
    obtain ⟨p, q, c, a⟩ := e
    obtain ⟨p', q', c', a'⟩ := e'
    obtain ⟨hp, -, hc, ha⟩ := he
    exact ⟨hp, hfound, hc, ha⟩
  · refine (Parsable.agree_readAll? hself hnm).bind_pure fun found found' hfound => ?_
    obtain ⟨p, q, c, a⟩ := e
    obtain ⟨p', q', c', a'⟩ := e'
    obtain ⟨hp, hm, -, ha⟩ := he
    exact ⟨hp, hm, hfound, ha⟩
  · obtain ⟨j, k, rfl, rfl, hjk⟩ := hnm.exists_json
    exact agree_pure (he.keep name (Node.Twin.untyped hjk))

/-- Employees can be read with the members in any order. -/
theorem orderless : Parsable.Orderless Employee Same where
  create n m _ := .ok (.mk rfl .none .none fun _ => .none)
  keep keep hkeep key b e e' he := by
    cases hkeep
    exact he.keep key (by simp [Untyped.same])
  setInitialized _ _ _ he := he
  steady self hself o e m := (updates_assign hself o m).steady e
  assign self hsteady hself ms ns hmembers o o' ho := by
    obtain ⟨hnodup, ns', hperm, htwins⟩ := hmembers
    have hsame := agree_foldlM (htwins.imp fun _ _ hxy _ _ he => agree_assign hself o o' hxy he) ho
    have hkeys : ms.keys = Members.keys ns' := Members.keys_eq_of_forall₂ htwins fun _ _ h => h.1
    have hshuffled := agree_assign_perm hsteady o' o' hperm (hkeys ▸ hnodup)
    exact hsame.trans hshuffled fun _ _ _ => Same.of_shuffled

end Employee

end Marshal
