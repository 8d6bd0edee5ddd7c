import Marshal.Parsable
import Marshal.Proofs.Codec
import Marshal.Proofs.Reading.Filling
import Marshal.Proofs.Reading.Run

/-!
The flat fields of a model in a JSON document. Each field has a row, which says what stands under
its name, if anything does.
-/

namespace Marshal

namespace Parsable

/-- A layer goes on with a value, and may have logged something. -/
theorem observe_cases {α : Type} [Parsable α] (phase : Phase) (a : α) (l : Layer) :
    (∃ b, observe phase a l = pure b) ∨
      ∃ b f, observe phase a l = modify f >>= fun _ => pure b := by
  cases l with
  | changes => exact .inl ⟨_, rfl⟩
  | observer o =>
      rw [observe]
      by_cases hseen : (if phase = .before then o.before else o.after) = true
      · rw [if_pos hseen]
        split <;> exact .inr ⟨_, _, rfl⟩
      · rw [if_neg hseen]
        exact .inl ⟨a, rfl⟩

/-! ### Lists of scalars as lists of models -/

theorem ofResult_elements {α : Type} (read : Node → Result (Option α)) (n : Node) :
    (ReadM.ofResult do
      match ← n.elements? with
      | none => return none
      | some es => return some (← es.mapM read).reduceOption) =
      readAll? (fun c => ReadM.ofResult (read c)) n := by
  rw [readAll?, ReadM.ofResult_bind]
  congr 1
  funext found
  cases found with
  | none => rfl
  | some es =>
      show ReadM.ofResult (es.mapM read >>= _) = _
      rw [ReadM.ofResult_bind, ReadM.ofResult_mapM]
      rfl

theorem readList?_eq_readAll? {k : Kind} (n : Node) :
    ReadM.ofResult (n.readList? k) = readAll? (fun c => ReadM.ofResult (c.read? k)) n :=
  ofResult_elements (·.read? k) n

theorem readNodes?_eq_readAll? {V : Type} {e : WireEnum V} (n : Node) :
    ReadM.ofResult (e.readNodes? n) = readAll? (fun c => ReadM.ofResult (e.readNode? c)) n :=
  ofResult_elements e.readNode? n

/-- The elements of an array are read one by one, and none is left out. -/
theorem readAll?_array {α : Type} {read : Node → ReadM (Option α)} {n : JsonNode}
    {items : List Json} {as : List α} (hn : n.value = .array items) (hroom : items ≠ [] → n.Room 1)
    (h : List.Forall₂ (fun v a => ∀ step, read (.json (n.below step v)) = pure (some a)) items as) :
    readAll? read (.json n) = pure (some as) := by
  have hitems : ((n.itemsBelow 0 items).map Node.json).mapM read = pure (as.map some) := by
    refine mapM_eq_pure (List.forall₂_map_left_iff.mpr (JsonNode.forall₂_itemsBelow ?_ 0))
    rw [List.forall₂_map_right_iff]
    exact h
  simp only [readAll?, Node.elements?_json hn hroom, ReadM.ofResult_ok, pure_bind, hitems,
    reduceOption_map_some]

/-- The elements of an array are read one by one, and those that give nothing are left out. -/
theorem ensures_readAll? {α : Type} {read : Node → ReadM (Option α)} {R : Json → Option α → Prop}
    {n : JsonNode} (h : ∀ items, n.value = .array items → ∀ v ∈ items, ∀ step,
      (read (.json (n.below step v))).Ensures (R v)) :
    (readAll? read (.json n)).Ensures fun found =>
      (n.value = .null ∧ found = none) ∨ ∃ items each, n.value = .array items ∧
        (items ≠ [] → n.Room 1) ∧ List.Forall₂ R items each ∧
        found = some each.reduceOption := by
  refine ReadM.Ensures.bind (ReadM.ensures_ofResult fun _ h => h) fun found hfound => ?_
  rcases Node.elements?_json_ok hfound with ⟨hv, rfl⟩ | ⟨items, hv, rfl⟩
  · exact ReadM.ensures_pure (.inl ⟨hv, rfl⟩)
  · show ReadM.Ensures (((n.itemsBelow 0 items).map Node.json).mapM read >>= _) _
    rw [List.mapM_map]
    refine ReadM.Ensures.bind (ReadM.ensures_mapM (R := fun c found => R c.value found)
      fun c hc => ?_) fun each heach => ReadM.ensures_pure (.inr ⟨items, each, hv, ?_, ?_, rfl⟩)
    · obtain ⟨step, v, hmem, rfl⟩ := JsonNode.exists_of_mem_itemsBelow hc
      exact h items hv v hmem step
    · exact Node.room_of_elements?_json hv hfound
    · rw [← n.values_itemsBelow 0 items]
      exact List.forall₂_map_left_iff.mpr heach

/-- Every value in the list that was read has come from an element, and elements need room. -/
theorem forall_readAll? {α : Type} {read : Node → ReadM (Option α)} {P : α → Prop} {n : JsonNode}
    (h : ∀ items, n.value = .array items → ∀ v ∈ items, ∀ step,
      (read (.json (n.below step v))).Ensures fun found => ∀ a ∈ found, P a) :
    (readAll? read (.json n)).Ensures fun found => ∀ as ∈ found,
      ∃ items, n.value = .array items ∧ ∀ a ∈ as, n.Room 1 ∧ P a := by
  have hmem {items : List Json} {each : List (Option α)}
      (heach : List.Forall₂ (fun _ found => ∀ a ∈ found, P a) items each) :
      ∀ found ∈ each, items ≠ [] ∧ ∀ a ∈ found, P a := by
    induction heach with
    | nil => exact List.forall_mem_nil _
    | cons hfound _ ih =>
        exact List.forall_mem_cons.mpr ⟨⟨List.cons_ne_nil _ _, hfound⟩,
          fun found hmem => ⟨List.cons_ne_nil _ _, (ih found hmem).2⟩⟩
  refine (ensures_readAll? h).mono ?_
  rintro found (⟨-, rfl⟩ | ⟨items, each, hitems, hroom, heach, rfl⟩)
  · exact nofun
  · intro as has
    obtain rfl := Option.some.inj has
    refine ⟨items, hitems, fun a ha => ?_⟩
    obtain ⟨hne, hP⟩ := hmem heach _ (List.reduceOption_mem_iff.mp ha)
    exact ⟨hroom hne, hP a rfl⟩

end Parsable

namespace Field

variable {α β : Type}

theorem ensures_reader {f : Field α} {n : Node} {a : α} {Q : Option f.Value → Prop} {P : α → Prop}
    (h : (ReadM.ofResult (f.codec.read? n)).Ensures Q) (hset : ∀ v, Q v → P (f.set v a)) :
    ((f.reader n).on a).Ensures P := by
  rw [on_reader]
  exact h.bind fun v hv => ReadM.ensures_pure (hset v hv)

abbrev Row := String × Option Json

def present (rows : List Row) : Members Json :=
  rows.flatMap fun row => row.2.toList.map (row.1, ·)

theorem mem_present {rows : List Row} {m : String × Json} :
    m ∈ present rows ↔ (m.1, some m.2) ∈ rows := by
  constructor
  · intro h
    obtain ⟨⟨name, v⟩, hrow, hm⟩ := List.mem_flatMap.mp h
    obtain ⟨j, hj, rfl⟩ := List.mem_map.mp hm
    obtain rfl := Option.mem_toList.mp hj
    exact hrow
  · exact fun h => List.mem_flatMap.mpr ⟨_, h, by simp⟩

theorem keys_present (rows : List Row) :
    (Members.keys (present rows)).Sublist (rows.map Prod.fst) := by
  induction rows with
  | nil => exact .slnil
  | cons row rows ih =>
      obtain ⟨name, _ | v⟩ := row
      · exact ih.cons name
      · exact ih.cons_cons name

/-- The row of a field: writing it from `p` puts the row's value there, and reading it gives what
`q` has. -/
structure Carries (p q : α) (f : Field α) (row : Row) : Prop where
  name : row.1 = f.name
  codec : f.codec.Carries (f.get p) row.2 (f.get q)

structure Writes (p : α) (f : Field α) (row : Row) : Prop where
  name : row.1 = f.name
  adds : Script.Adds (f.codec.script (some f.name) (f.get p)) (row.2.toList.map (f.name, ·))

theorem Carries.writes {p q : α} {f : Field α} {row : Row} (h : Carries p q f row) :
    Writes p f row :=
  ⟨h.name, h.codec.adds f.name⟩

/-- Taking the values of `p` field by field leads from `a` to `b`; where `p` has none, nothing
changes. -/
inductive Settles (p : α) : List (Field α) → α → α → Prop
  | nil (a : α) : Settles p [] a a
  | cons {f : Field α} {fs : List (Field α)} {a b : α} (absent : f.set none a = a)
      (rest : Settles p fs (f.set (f.get p) a) b) : Settles p (f :: fs) a b

section

variable {p q : α} {fs : List (Field α)} {rows : List Row}

theorem adds_scripts_of_writes (h : List.Forall₂ (Writes p) fs rows) :
    Script.Adds (scripts fs p) (present rows) := by
  induction h with
  | nil => exact Script.adds_nil
  | @cons f row fs rows hrow _ ih =>
      obtain ⟨name, v⟩ := row
      obtain rfl : name = f.name := hrow.name
      exact Script.Adds.append hrow.adds ih

theorem adds_scripts (h : List.Forall₂ (Carries p q) fs rows) :
    Script.Adds (scripts fs p) (present rows) :=
  adds_scripts_of_writes (h.imp fun _ _ => Carries.writes)

/-- Reading the members that the rows have takes the values of `q`. -/
theorem foldlM_assign [Parsable β] {readers : FieldReaders β} {view : Projection β α}
    (hview : view.Lawful) {a b : α} (hset : Settles q fs a b)
    (hrows : List.Forall₂ (Carries p q) fs rows)
    (hreaders : ∀ f ∈ fs, readers.get? f.name = some (FieldReaders.lift view f.reader))
    {n : JsonNode} (hroom : ∀ m ∈ present rows, n.Room (m.2.depth + 1)) {e : β}
    (he : view.get? e = some a) :
    ((present rows).map fun m => (m.1, Node.json (n.below m.1 m.2))).foldlM
      (Parsable.assign readers) e = pure (view.set b e) := by
  induction hrows generalizing a e with
  | nil =>
      cases hset
      rw [hview.set_get? e _ he]
      rfl
  | @cons f row fs rows hrow _ ih =>
      obtain ⟨name, v⟩ := row
      obtain rfl : name = f.name := hrow.name
      cases hset with
      | cons habsent hset =>
        have hrest := fun g hg => hreaders g (List.mem_cons_of_mem f hg)
        cases v with
        | none =>
            -- Nothing is read, and the value already has nothing in this field.
            have hnone : f.get q = none := hrow.codec.absent rfl
            rw [hnone, habsent] at hset
            exact ih hset hrest hroom he
        | some v =>
            have hread : f.codec.read? (.json (n.below f.name v)) = .ok (f.get q) :=
              hrow.codec.reads _ rfl ((hroom (f.name, v) (by simp [present])).below ..)
            have hassign : Parsable.assign readers e (f.name, Node.json (n.below f.name v)) =
                pure (view.set (f.set (f.get q) a) e) := by
              have hreader := hreaders f (by simp)
              simp only [Parsable.assign, hreader, FieldReaders.on_lift, he, on_reader, hread,
                ReadM.ofResult_ok, pure_bind]
            have hget : view.get? (view.set (f.set (f.get q) a) e) = some (f.set (f.get q) a) :=
              hview.get?_set e _ (by rw [he]; rfl)
            have hnext := ih hset hrest (fun m hm => hroom m (List.mem_cons_of_mem _ hm)) hget
            rw [hview.set_set] at hnext
            refine Eq.trans ?_ hnext
            show (Parsable.assign readers e (f.name, Node.json (n.below f.name v)) >>= _) = _
            rw [hassign, pure_bind]
            rfl

end

end Field

end Marshal
