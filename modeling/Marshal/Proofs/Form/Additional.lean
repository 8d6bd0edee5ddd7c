import Marshal.Proofs.Form.Groups
import Marshal.Proofs.Writing.Form

/-!
Undeclared fields in a form. The writer passes over those that a field shadows, and the reader joins
what is left to every field whose name reads the same.
-/

namespace Marshal

/-! ### Writing -/

namespace Form

/-- What of undeclared scalars is written after `pairs`. -/
def kept (pairs : Pairs) : AdditionalData → Pairs
  | [] => []
  | (key, v) :: data =>
    if pairs.any fun p => Text.eqIgnoringCase p.1 key then kept pairs data
    else
      let pair := (key, v.scalarText?.getD "")
      pair :: kept (pairs ++ [pair]) data

end Form

theorem Untyped.calls_scalar {v : Untyped} {s : String} (h : v.scalarText? = some s)
    (key : Option String) :
    ∃ c, v.calls key = [c] ∧ c.lineText? = some (some s) ∧ c.key? = key := by
  cases v with
  | array | object => cases h
  | _ => exact ⟨_, rfl, congrArg some h, rfl⟩

theorem AnyDraft.shadows_form (d : FormDraft) (key : String) :
    Draft.shadows (AnyDraft.form d) key = d.pairs.any fun p => Text.eqIgnoringCase p.1 key := rfl

theorem FormDraft.put_ok {d d' : FormDraft} {name s : String}
    (h : d.put (some name) s = (.ok (), d')) : d' = d.extend [(name, s)] := by
  obtain ⟨pairs, inRoot, _ | c⟩ := d
  · cases inRoot with
    | true => exact (congrArg Prod.snd h).symm
    | false => cases h
  · cases h

/-- Undeclared scalars that a form takes. -/
theorem Draft.writeAdditional_form {data : AdditionalData}
    (hscalar : ∀ m ∈ data, m.2.scalarText?.isSome) {d : FormDraft} {x : AnyDraft}
    (h : Draft.writeAdditional data (AnyDraft.form d) = (.ok (), x)) :
    x = .form (d.extend (Form.kept d.pairs data)) := by
  induction data generalizing d with
  | nil =>
      obtain rfl : AnyDraft.form d = x := congrArg Prod.snd h
      rw [Form.kept, FormDraft.extend_nil]
  | cons m data ih =>
      obtain ⟨key, v⟩ := m
      obtain ⟨hv, hdata⟩ := List.forall_mem_cons.mp hscalar
      obtain ⟨s, hs⟩ := Option.isSome_iff_exists.mp hv
      rw [writeAdditional, AnyDraft.shadows_form] at h
      rw [Form.kept]
      split at h
      · rename_i hshadow
        rw [if_pos hshadow]
        exact ih hdata h
      · rename_i hshadow
        obtain ⟨c, hc, htext, hkey⟩ := Untyped.calls_scalar hs (some key)
        have hrun : runCalls (v.calls (some key)) (AnyDraft.form d) =
            run [.ok c] (AnyDraft.form d) := by rw [hc]; rfl
        rw [if_neg hshadow, hs, Option.getD_some]
        rw [hrun, run, AnyDraft.call_form, FormDraft.call_line htext, hkey] at h
        obtain ⟨result, d', hput⟩ : ∃ result d', d.put (some key) s = (result, d') := ⟨_, _, rfl⟩
        rw [hput] at h
        cases result with
        | error e => cases h
        | ok _ =>
            obtain rfl : d' = d.extend [(key, s)] := FormDraft.put_ok hput
            rw [ih hdata h, FormDraft.extend_extend]
            rfl

/-! ### Reading -/

namespace FormFields

def nameOf (key : String) : String :=
  Text.lower (Text.trim key)

theorem get?_addPair_of_ne {fields : FormFields} {p : String × String} {name : String}
    (h : nameOf p.1 ≠ name) :
    Members.get? (fields.addPair p) name = Members.get? fields name := by
  rw [addPair]
  split
  · rfl
  · rw [add]
    split
    · exact Members.get?_put_of_ne h.symm _
    · exact Members.get?_put_of_ne h.symm _

/-- The value is joined to those that are there. -/
theorem get?_addPair_of_eq {fields : FormFields} {p : String × String} {name : String}
    {x : FormField} (hne : name ≠ "") (h : nameOf p.1 = name)
    (hx : Members.get? fields name = some x) :
    Members.get? (fields.addPair p) name = some { x with text := x.text ++ "," ++ p.2 } := by
  have hempty : (Text.trim p.1).isEmpty = false := by
    refine Bool.eq_false_iff.mpr fun hblank => hne ?_
    rw [← h, nameOf, String.isEmpty_iff.mp hblank]
    rfl
  rw [nameOf] at h
  rw [addPair, hempty, if_neg Bool.false_ne_true, add, h, hx]
  exact Members.get?_put_self ..

/-- What pairs that come after it add to a field. -/
theorem get?_foldl_addPair {fields : FormFields} {name : String} {x : FormField} (hne : name ≠ "")
    (hx : Members.get? fields name = some x) (ps : Form.Pairs) :
    Members.get? (ps.foldl addPair fields) name =
      some { x with text := ",".intercalate (x.text ::
        (ps.filter fun p => nameOf p.1 == name).map Prod.snd) } := by
  induction ps generalizing fields x with
  | nil => simpa using hx
  | cons p ps ih =>
      rw [List.foldl_cons]
      by_cases h : nameOf p.1 = name
      · rw [ih (get?_addPair_of_eq hne h hx), List.filter_cons_of_pos (by simpa using h),
          List.map_cons, String.intercalate_cons_append, String.intercalate_cons_cons]
      · rw [ih ((get?_addPair_of_ne h).trans hx), List.filter_cons_of_neg (by simpa using h)]

/-- There is a field for every pair. -/
theorem exists_get?_ofPairs {pairs : Form.Pairs} {p : String × String} (htrim : Tidy p.1)
    (hne : Text.lower p.1 ≠ "") (hp : p ∈ pairs) :
    ∃ x, Members.get? (ofPairs pairs) (Text.lower p.1) = some x := by
  obtain ⟨before, after, rfl⟩ := List.append_of_mem hp
  have hadded : ∃ x, Members.get? ((ofPairs before).addPair p) (Text.lower p.1) = some x := by
    obtain ⟨name, value⟩ := p
    rw [addPair_of_tidy htrim, add]
    split
    · exact ⟨_, Members.get?_put_self ..⟩
    · exact ⟨_, Members.get?_put_self ..⟩
  obtain ⟨x, hx⟩ := hadded
  rw [ofPairs, List.foldl_append, List.foldl_cons, ← ofPairs]
  exact ⟨_, get?_foldl_addPair hne hx after⟩

end FormFields

/-- No key that reads as `name` is written if fields shadow all of them. -/
theorem Form.kept_forall_ne_iff {name : String} {pairs : Pairs} {data : AdditionalData} :
    (∀ p ∈ kept pairs data, FormFields.nameOf p.1 ≠ name) ↔
      ∀ m ∈ data, FormFields.nameOf m.1 = name →
        ∃ p ∈ pairs, Text.eqIgnoringCase p.1 m.1 = true := by
  induction data generalizing pairs with
  | nil => simp [kept]
  | cons m data ih =>
      obtain ⟨key, v⟩ := m
      rw [kept, List.forall_mem_cons]
      split
      · rename_i hshadow
        rw [ih]
        exact (and_iff_right fun _ => List.any_eq_true.mp hshadow).symm
      · rename_i hshadow
        have hhead : ¬ ∃ p ∈ pairs, Text.eqIgnoringCase p.1 key = true :=
          fun h => hshadow (List.any_eq_true.mpr h)
        rw [List.forall_mem_cons, ih]
        simp only [hhead, imp_false]
        refine and_congr_right fun hkey => ?_
        -- The pair of this key shadows only keys that read the same as it.
        have hpair (m : String × Untyped) (hm : FormFields.nameOf m.1 = name) :
            ¬ Text.eqIgnoringCase key m.1 = true := fun h =>
          hkey ((Text.lower_eq_of_eqIgnoringCase (Text.eqIgnoringCase_trim h)).trans hm)
        refine forall₂_congr fun m _ => forall_congr' fun hm => ?_
        simp [hpair m hm]

end Marshal
