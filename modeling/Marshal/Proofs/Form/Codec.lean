import Marshal.Proofs.Codec
import Marshal.Proofs.Form.Groups
import Marshal.Proofs.Text.Split
import Marshal.Proofs.Writing.Form

/-!
Codecs in a form. `Codec.Spells` ties the two sides of a codec together by the texts that stand in
the form between them.
-/

namespace Marshal

/-- Writing `v` adds the name once for each of `texts`, and reading what these become gives `back`.
-/
structure Codec.Spells {V : Type} (c : Codec V) (v : Option V) (texts : List String)
    (back : Option V) : Prop where
  appends : ∀ name, Script.Appends (c.script (some name) v) (texts.map (name, ·))
  reads : ∀ path, texts ≠ [] → c.read? (.form (.scalar path (",".intercalate texts))) = .ok back
  absent : texts = [] → back = none

/-! ### What a text says -/

namespace FormNode

/-- The text, unless it is the null of a form. -/
def present? (s : String) : Option String :=
  if isNull s then none else some s

theorem present?_of_not_null {s : String} (h : isNull s = false) : present? s = some s := by
  simp [present?, h]

theorem present?_eq_some_iff {s t : String} : present? s = some t ↔ s = t ∧ isNull t = false := by
  cases h : isNull s with
  | true =>
      simp only [present?, h, if_true, reduceCtorEq, false_iff, not_and, Bool.not_eq_false]
      rintro rfl
      exact h
  | false =>
      simp only [present?, h, Bool.false_eq_true, if_false, Option.some.injEq, iff_self_and]
      rintro rfl
      exact h

def items (s : String) : List String :=
  (Text.splitOn ',' s.toList).filterMap fun cs => present? (String.ofList (Text.trimChars cs))

/-- An item has no commas and no blanks around it, and is not null. -/
theorem mem_items {s t : String} (h : t ∈ items s) :
    ',' ∉ t.toList ∧ Text.trim t = t ∧ isNull t = false := by
  obtain ⟨cs, hcs, ht⟩ := List.mem_filterMap.mp h
  obtain ⟨rfl, hnull⟩ := present?_eq_some_iff.mp ht
  refine ⟨fun hcomma => ?_, ?_, hnull⟩
  · rw [String.toList_ofList] at hcomma
    exact Text.not_mem_of_mem_splitOn hcs (Text.mem_of_mem_trimChars hcomma)
  · rw [Text.trim, String.toList_ofList, Text.trimChars_idem]

theorem comma_not_mem_of_isNull {s : String} (h : isNull s = true) : ',' ∉ s.toList := by
  intro hcomma
  have hlower : ','.toLower ∈ s.toList.map Char.toLower := List.mem_map_of_mem hcomma
  rw [Text.eqIgnoringCase_iff.mp h] at hlower
  exact absurd hlower (by decide)

/-- Texts that can be items are found again when they are joined. -/
theorem items_intercalate {ts : List String} (hne : ts ≠ [])
    (h : ∀ t ∈ ts, ',' ∉ t.toList ∧ Text.trim t = t ∧ isNull t = false) :
    (present? (",".intercalate ts)).map items = some ts := by
  have hsplit : Text.splitOn ',' (",".intercalate ts).toList = ts.map String.toList := by
    rw [String.toList_intercalate]
    refine Text.splitOn_intercalate (by simpa using hne) ?_
    exact List.forall_mem_map.mpr fun t ht => (h t ht).1
  have hitem : ∀ t ∈ ts, present? (String.ofList (Text.trimChars t.toList)) = some t := by
    intro t ht
    obtain ⟨-, htrim, hnull⟩ := h t ht
    rw [← Text.trim, htrim, present?_of_not_null hnull]
  have hitems : items (",".intercalate ts) = ts := by
    rw [items, hsplit, List.filterMap_map, Function.comp_def]
    calc
      ts.filterMap (fun t => present? (String.ofList (Text.trimChars t.toList))) =
          ts.filterMap some := List.filterMap_congr hitem
      _ = ts := List.filterMap_some
  have hnull : isNull (",".intercalate ts) = false := by
    refine Bool.eq_false_iff.mpr fun hnull => ?_
    -- Without a comma the joined text is the only one.
    rw [Text.splitOn_of_not_mem (comma_not_mem_of_isNull hnull)] at hsplit
    obtain ⟨t, rfl, ht⟩ := List.map_eq_singleton_iff.mp hsplit.symm
    rw [String.toList_inj.mp ht.symm, (h t List.mem_cons_self).2.2] at hnull
    cases hnull
  rw [present?_of_not_null hnull, Option.map_some, hitems]

theorem read?_scalar {k : Kind} {s : String} (path : String) :
    (Node.form (.scalar path s)).read? k = k.ofText? path (present? s) := rfl

theorem text?_scalar (path s : String) :
    (Node.form (.scalar path s)).text? = .ok (present? s) := by
  rw [Node.text?, read?_scalar]
  cases present? s <;> rfl

theorem elements?_scalar {s : String} (h : isNull s = false) (path : String) :
    (Node.form (.scalar path s)).elements? =
      .ok (some ((Text.splitOn ',' s.toList).zipIdx.map fun item =>
        .form (.scalar (path ++ "/" ++ natText item.2)
          (String.ofList (Text.trimChars item.1))))) := by
  simp only [Node.elements?, elements?, h, Bool.false_eq_true, if_false, bind, Except.bind, pure,
    Except.pure, Option.map_some, List.map_map]
  rfl

theorem readList?_scalar (path s : String) :
    (Node.form (.scalar path s)).readList? .string = .ok ((present? s).map items) := by
  cases h : isNull s with
  | true =>
      have hnull : (Node.form (.scalar path s)).elements? = .ok none := by
        simp [Node.elements?, elements?, h, bind, Except.bind, pure, Except.pure]
      simp [Node.readList?, hnull, present?, h, bind, Except.bind, pure, Except.pure]
  | false =>
      -- The paths of the items differ, but their texts alone decide what is read.
      have hitems : ((Text.splitOn ',' s.toList).zipIdx.map fun item => Node.form (.scalar
          (path ++ "/" ++ natText item.2) (String.ofList (Text.trimChars item.1)))).mapM
            (·.read? .string) = .ok ((Text.splitOn ',' s.toList).zipIdx.map fun item =>
              present? (String.ofList (Text.trimChars item.1))) := by
        refine mapM_eq_pure ?_
        rw [List.forall₂_map_left_iff, List.forall₂_map_right_iff, List.forall₂_same]
        exact fun item _ => text?_scalar _ _
      have hreduce : ((Text.splitOn ',' s.toList).zipIdx.map fun item =>
          present? (String.ofList (Text.trimChars item.1))).reduceOption = items s := by
        rw [List.reduceOption, List.filterMap_map, items]
        conv => rhs; rw [← List.zipIdx_map_fst 0 (Text.splitOn ',' s.toList)]
        rw [List.filterMap_map]
        rfl
      rw [Node.readList?, elements?_scalar h, present?_of_not_null h]
      simp only [bind, Except.bind, hitems, pure, Except.pure, hreduce, Option.map_some]

end FormNode

open FormNode

namespace Kind

theorem string_codec_spells (v : Option String) :
    Kind.string.codec.Spells v v.toList (v.bind present?) where
  appends name := by
    cases v with
    | none => exact Script.appends_absent (c := .string (some name) none) rfl
    | some s => exact Script.appends_line (c := .string (some name) (some s)) rfl rfl
  reads path h := by
    cases v with
    | none => exact absurd rfl h
    | some s =>
        rw [Option.toList_some, String.intercalate_singleton]
        exact text?_scalar path s
  absent h := by
    cases v with
    | none => rfl
    | some s => cases h

theorem string_listCodec_spells (vs : Option (List String)) :
    Kind.string.listCodec.Spells vs (vs.getD [])
      (if vs.getD [] = [] then none else (present? (",".intercalate (vs.getD []))).map items) where
  appends name := by
    cases vs with
    | none => exact Script.appends_nil
    | some vs =>
        refine Script.appends_collection ?_ name
        rw [List.forall₂_map_left_iff]
        exact List.forall₂_same.mpr fun v _ => ⟨.string none (some v), rfl, rfl, rfl⟩
  reads path h := by
    rw [if_neg h]
    exact readList?_scalar path _
  absent h := if_pos h

/-- A kind with texts that are read back. -/
theorem codec_spells {k : Kind} (hk : k ≠ .string) {v : Option k.Carrier}
    {text : k.Carrier → String}
    (hcall : ∀ key, ∀ x ∈ v, ∃ c, k.call key (some x) = .ok c ∧
      c.lineText? = some (some (text x)) ∧ c.key? = key)
    (hnull : ∀ x ∈ v, isNull (text x) = false)
    (hread : ∀ x ∈ v, k.ofTrimmed? (Text.trim (text x)) = some x) :
    k.codec.Spells v (v.map text).toList v where
  appends name := by
    cases v with
    | none => cases k <;> exact Script.appends_absent rfl
    | some x =>
        obtain ⟨c, hc, htext, hkey⟩ := hcall (some name) x rfl
        have hscript : k.codec.script (some name) (some x) = [.ok c] := by
          rw [← hc]
          rfl
        rw [hscript]
        exact Script.appends_line htext hkey
  reads path h := by
    cases v with
    | none => exact absurd rfl h
    | some x =>
        rw [Option.map_some, Option.toList_some, String.intercalate_singleton]
        show (Node.form (.scalar path (text x))).read? k = _
        rw [read?_scalar, present?_of_not_null (hnull x rfl), ofText?,
          ofText_of_ofTrimmed? hk (hread x rfl)]
        rfl
  absent h := by
    cases v with
    | none => rfl
    | some x => cases h

theorem isNull_intText (n : Int) : isNull (intText n) = false := by
  refine Bool.eq_false_iff.mpr fun h => ?_
  have hchars : (intChars n).map Char.toLower = ['n', 'u', 'l', 'l'] := by
    have heq := Text.eqIgnoringCase_iff.mp h
    rwa [intText, String.toList_ofList] at heq
  have hmem : 'n' ∈ (intChars n).map Char.toLower := by simp [hchars]
  obtain ⟨c, hc, hn⟩ := List.mem_map.mp hmem
  rcases mem_intChars hc with rfl | hdigit
  · cases hn
  · have hbound := Text.isDigit_iff.mp hdigit
    have hsame : c.toLower = c := dif_neg fun hcap => by
      have hcap : 65 ≤ c.toNat := hcap.1
      omega
    rw [← hsame, hn] at hbound
    exact absurd hbound (by decide)

theorem int_codec_spells (v : Option Int32) :
    Kind.int.codec.Spells v (v.map fun n => intText n.toInt).toList v := by
  refine codec_spells (by decide) (fun key n _ => ?_) (fun n _ => isNull_intText _) fun n _ => ?_
  · have hlo := Int32.le_toInt n
    have hhi := Int32.toInt_lt n
    have hint : (Int64.ofInt n.toInt).toInt = n.toInt :=
      Int64.toInt_ofInt_of_le (by omega) (by omega)
    refine ⟨.integer key (some (Int64.ofInt n.toInt)), rfl, ?_, rfl⟩
    simp only [Call.lineText?, Option.map_some, hint]
  · have hlo := Int32.le_toInt n
    have hhi := Int32.toInt_lt n
    rw [intText, Text.trim_ofList_of_solid (solid_intChars _), ofTrimmed?, String.toList_ofList,
      readInt32?, readInt?_intChars, Option.bind_some, toInt32?, if_pos (by omega),
      Int32.ofInt_toInt]

theorem bool_codec_spells (v : Option Bool) :
    Kind.bool.codec.Spells v (v.map boolText).toList v := by
  refine codec_spells (by decide) (fun key b _ => ⟨.bool key (some b), rfl, rfl, rfl⟩) ?_ ?_
  · intro b _
    cases b <;> decide
  · intro b _
    cases b <;> decide

end Kind

/-- A value with a name that is not the null of a form. -/
theorem WireEnum.codec_spells {V : Type} [DecidableEq V] {e : WireEnum V} {v : Option V}
    (h : ∀ x ∈ v, e.Named x) (hnull : ∀ x ∈ v, ∀ s ∈ e.write? x, isNull s = false) :
    e.codec.Spells v (v.bind e.write?).toList v where
  appends name := by
    cases v with
    | none => exact Script.appends_nil
    | some x =>
        obtain ⟨s, hwrite, -⟩ := Option.bind_eq_some_iff.mp (h x rfl)
        have hscript : e.codec.script (some name) (some x) =
            [.ok (.string (some name) (some s))] := by
          show e.script (some name) (some x) = _
          simp [script, hwrite]
        rw [hscript, Option.bind_some, hwrite]
        exact Script.appends_line rfl rfl
  reads path hne := by
    cases v with
    | none => exact absurd rfl hne
    | some x =>
        obtain ⟨s, hwrite, hread⟩ := Option.bind_eq_some_iff.mp (h x rfl)
        rw [Option.bind_some, hwrite, Option.toList_some, String.intercalate_singleton]
        show e.readNode? (.form (.scalar path s)) = _
        rw [readNode?, text?_scalar, present?_of_not_null (hnull x rfl s hwrite)]
        simp only [bind, Except.bind, Option.bind, hread, pure, Except.pure]
  absent hnone := by
    cases v with
    | none => rfl
    | some x =>
        obtain ⟨s, hwrite, -⟩ := Option.bind_eq_some_iff.mp (h x rfl)
        rw [Option.bind_some, hwrite] at hnone
        cases hnone

/-! ### Values that may not survive -/

/-- Whatever is written under a name stands under that name. -/
def Codec.Spreads {V : Type} (c : Codec V) : Prop :=
  ∀ (name : String) (v : Option V) (d : FormDraft) (x : AnyDraft), d.Open →
    Draft.run (c.script (some name) v) (AnyDraft.form d) = (.ok (), x) →
    ∃ texts : List String, x = .form (d.extend (texts.map (name, ·)))

theorem Codec.spreads_of_lines {V : Type} {c : Codec V}
    (h : ∀ name v, Script.Lines (some name) (c.script (some name) v)) : c.Spreads := by
  intro name v d x hd hrun
  exact Script.exists_of_run_lines (h name v) hd.root (hd.fieldName name) hrun

theorem Codec.spreads_nothing {d : FormDraft} {x : AnyDraft} (name : String)
    (hrun : Draft.run [] (AnyDraft.form d) = (.ok (), x)) :
    ∃ texts : List String, x = .form (d.extend (texts.map (name, ·))) := by
  refine ⟨[], ?_⟩
  rw [List.map_nil, FormDraft.extend_nil]
  exact (congrArg Prod.snd hrun).symm

namespace Kind

variable (k : Kind)

theorem call_line {key : Option String} {v : Option k.Carrier} {c : Call}
    (h : k.call key v = .ok c) : c.key? = key ∧ ∃ text, c.lineText? = some text := by
  cases k with
  | dateTime =>
      cases v with
      | none =>
          cases h
          exact ⟨rfl, _, rfl⟩
      | some t =>
          obtain ⟨s, -, rfl⟩ := exists_of_map_ok h
          exact ⟨rfl, _, rfl⟩
  | _ =>
      cases h
      exact ⟨rfl, _, rfl⟩

theorem codec_spreads : k.codec.Spreads := by
  refine Codec.spreads_of_lines fun name v c hc => ?_
  exact call_line k (List.mem_singleton.mp hc).symm

theorem listCodec_spreads : k.listCodec.Spreads := by
  intro name vs d x hd hrun
  cases vs with
  | none => exact Codec.spreads_nothing name hrun
  | some vs =>
      refine Script.exists_of_run_collection (fun c hc => ?_) hd hrun
      obtain ⟨v, -, hv⟩ := List.mem_map.mp hc
      exact call_line k hv

end Kind

namespace WireEnum

variable {V : Type} [DecidableEq V] (e : WireEnum V)

theorem script_lines (key : Option String) (v : Option V) : Script.Lines key (e.script key v) := by
  intro c hc
  rw [script] at hc
  cases hv : v.bind e.write? with
  | none =>
      rw [hv] at hc
      cases hc
  | some s =>
      rw [hv] at hc
      obtain rfl : c = .string key (some s) := by simpa using hc
      exact ⟨rfl, _, rfl⟩

theorem codec_spreads : e.codec.Spreads :=
  Codec.spreads_of_lines fun name v => e.script_lines (some name) v

theorem listCodec_spreads : e.listCodec.Spreads := by
  intro name vs d x hd hrun
  cases vs with
  | none => exact Codec.spreads_nothing name hrun
  | some vs =>
      refine Script.exists_of_run_collection (fun c hc => ?_) hd hrun
      obtain ⟨v, -, hv⟩ := List.mem_flatMap.mp hc
      exact e.script_lines none (some v) c hv

end WireEnum

end Marshal
