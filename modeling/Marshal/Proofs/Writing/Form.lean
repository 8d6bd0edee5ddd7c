import Mathlib.Data.List.Forall2
import Marshal.Proofs.Writing.Run

/-!
What writing does to a form. Within its one object a form takes fields and collections of fields,
and it refuses every other object.
-/

namespace Marshal

namespace FormDraft

/-- The form takes fields: its object is open, and no collection is. -/
structure Open (d : FormDraft) : Prop where
  root : d.inRoot = true
  collection : d.collection = none

def extend (d : FormDraft) (pairs : Form.Pairs) : FormDraft :=
  { d with pairs := d.pairs ++ pairs }

theorem Open.extend {d : FormDraft} (h : d.Open) (pairs : Form.Pairs) : (d.extend pairs).Open :=
  ⟨h.root, h.collection⟩

@[simp] theorem extend_nil (d : FormDraft) : d.extend [] = d := by
  simp [FormDraft.extend]

theorem extend_extend (d : FormDraft) (pairs more : Form.Pairs) :
    (d.extend pairs).extend more = d.extend (pairs ++ more) := by
  simp [FormDraft.extend]

/-- A value that goes under some name is added there. -/
theorem put_of_fieldName {d : FormDraft} {key : Option String} {name : String}
    (hroot : d.inRoot = true) (hname : d.fieldName key = .ok name) (s : String) :
    d.put key s = (.ok (), d.extend [(name, s)]) := by
  simp only [FormDraft.put, hname, hroot, if_true, FormDraft.extend]

theorem Open.fieldName {d : FormDraft} (h : d.Open) (name : String) :
    d.fieldName (some name) = .ok name := by
  simp only [FormDraft.fieldName, h.collection]

theorem Open.put_eq {d : FormDraft} (h : d.Open) (name s : String) :
    d.put (some name) s = (.ok (), d.extend [(name, s)]) :=
  put_of_fieldName h.root (h.fieldName name) s

theorem put_element {d : FormDraft} {name : String} (hroot : d.inRoot = true)
    (h : d.collection = some name) (s : String) :
    d.put none s = (.ok (), d.extend [(name, s)]) :=
  put_of_fieldName hroot (by simp only [fieldName, h]) s

theorem Open.put {d : FormDraft} (h : d.Open) (key s : String) :
    ∃ d', d'.Open ∧ d.put (some key) s = (.ok (), d') :=
  ⟨d.extend [(key, s)], h.extend _, h.put_eq key s⟩

theorem call_line {c : Call} {s : String} (h : c.lineText? = some (some s)) (d : FormDraft) :
    d.call c = d.put c.key? s := by
  cases c with
  | startObject | endObject | startCollection | endCollection => cases h
  | _ => simp only [call, h]

theorem call_absent {c : Call} (h : c.lineText? = some none) (d : FormDraft) :
    d.call c = (.ok (), d) := by
  cases c with
  | startObject | endObject | startCollection | endCollection => cases h
  | _ => simp only [call, h]

end FormDraft

theorem AnyDraft.call_form (c : Call) (d : FormDraft) :
    Draft.call c (form d) = ((FormDraft.call c d).1, form (FormDraft.call c d).2) := rfl

/-- An object below the root of a form is refused. -/
theorem AnyDraft.startObject_form {d : FormDraft} (h : d.inRoot = true) (key : Option String)
    (subject : Subject) :
    Draft.call (.startObject key subject) (form d) =
      (.error (.unsupported .nestedFormObject), form d) := by
  rw [call_form, FormDraft.call, FormDraft.startObject, if_pos (by simp [h])]

theorem Output.run_startCollection_form {d : FormDraft} (h : d.collection = none) (key : String)
    (layers : List Layer) (log : Log) :
    (Output.call (.startCollection (some key))).run ⟨.form d, layers, log⟩ =
      (.ok (), ⟨.form { d with collection := some key }, layers, log⟩) := by
  obtain ⟨pairs, inRoot, collection⟩ := d
  obtain rfl : collection = none := h
  rfl

/-! ### Calls in a row -/

namespace Script

/-- In a form that takes fields, the calls all succeed and add `pairs`. -/
def Appends (s : Script) (pairs : Form.Pairs) : Prop :=
  ∀ d : FormDraft, d.Open → Draft.run s (AnyDraft.form d) = (.ok (), .form (d.extend pairs))

theorem appends_nil : Appends [] [] := by
  intro d _
  rw [FormDraft.extend_nil]
  rfl

theorem Appends.append {a b : Script} {pairs more : Form.Pairs} (ha : a.Appends pairs)
    (hb : b.Appends more) : Appends (a ++ b) (pairs ++ more) := by
  intro d hd
  rw [Draft.run_append, ha d hd, ← FormDraft.extend_extend]
  exact hb _ (hd.extend pairs)

theorem appends_line {c : Call} {name s : String} (h : c.lineText? = some (some s))
    (hkey : c.key? = some name) : Appends [.ok c] [(name, s)] := by
  intro d hd
  rw [Draft.run, AnyDraft.call_form, FormDraft.call_line h, hkey, hd.put_eq]
  rfl

theorem appends_absent {c : Call} (h : c.lineText? = some none) : Appends [.ok c] [] := by
  intro d _
  rw [Draft.run, AnyDraft.call_form, FormDraft.call_absent h, FormDraft.extend_nil]
  rfl

/-- The call is for a value without a name, and `s` is its text. -/
def IsLine (r : Result Call) (s : String) : Prop :=
  ∃ c, r = .ok c ∧ c.lineText? = some (some s) ∧ c.key? = none

theorem run_inCollection {s : Script} {texts : List String} (h : List.Forall₂ IsLine s texts)
    {d : FormDraft} {name : String} (hroot : d.inRoot = true) (hd : d.collection = some name)
    (rest : Script) :
    Draft.run (s ++ rest) (AnyDraft.form d) =
      Draft.run rest (AnyDraft.form (d.extend (texts.map (name, ·)))) := by
  induction h generalizing d with
  | nil => simp
  | @cons r t s texts hr _ ih =>
      obtain ⟨c, rfl, htext, hkey⟩ := hr
      rw [List.cons_append, Draft.run, AnyDraft.call_form, FormDraft.call_line htext, hkey,
        FormDraft.put_element hroot hd]
      refine (ih (by exact hroot) (by exact hd)).trans ?_
      rw [FormDraft.extend_extend]
      rfl

/-- A collection of scalars is its name once for every element. -/
theorem appends_collection {s : Script} {texts : List String} (h : List.Forall₂ IsLine s texts)
    (name : String) :
    Appends (.ok (.startCollection (some name)) :: s ++ [.ok .endCollection])
      (texts.map (name, ·)) := by
  intro d hd
  obtain ⟨pairs, inRoot, collection⟩ := d
  obtain rfl : collection = none := hd.collection
  have hstart : Draft.call (.startCollection (some name)) (AnyDraft.form ⟨pairs, inRoot, none⟩) =
      (.ok (), .form ⟨pairs, inRoot, some name⟩) := rfl
  rw [List.cons_append, Draft.run, hstart]
  exact run_inCollection h (by exact hd.root) rfl _

/-! ### Calls that may fail -/

/-- The calls are for scalars under `key`, and some may have nothing to write. -/
def Lines (key : Option String) (s : Script) : Prop :=
  ∀ c, .ok c ∈ s → c.key? = key ∧ ∃ text, c.lineText? = some text

/-- Whatever scalars under one name add stands under that name. -/
theorem exists_of_run_lines {s : Script} {key : Option String} (h : s.Lines key) {d : FormDraft}
    {name : String} (hroot : d.inRoot = true) (hname : d.fieldName key = .ok name) {x : AnyDraft}
    (hrun : Draft.run s (AnyDraft.form d) = (.ok (), x)) :
    ∃ texts : List String, x = .form (d.extend (texts.map (name, ·))) := by
  induction s generalizing d with
  | nil =>
      refine ⟨[], ?_⟩
      rw [List.map_nil, FormDraft.extend_nil]
      exact (congrArg Prod.snd hrun).symm
  | cons r s ih =>
      have hrest : Lines key s := fun c hc => h c (List.mem_cons_of_mem r hc)
      cases r with
      | error e => cases hrun
      | ok c =>
          obtain ⟨hkey, text, htext⟩ := h c List.mem_cons_self
          rw [Draft.run, AnyDraft.call_form] at hrun
          cases text with
          | none =>
              rw [FormDraft.call_absent htext] at hrun
              exact ih hrest hroot hname hrun
          | some t =>
              rw [FormDraft.call_line htext, hkey, FormDraft.put_of_fieldName hroot hname] at hrun
              obtain ⟨texts, rfl⟩ := ih hrest (by exact hroot) (by exact hname) hrun
              exact ⟨t :: texts, by rw [FormDraft.extend_extend]; rfl⟩

/-- Whatever a collection of scalars adds stands under its name. -/
theorem exists_of_run_collection {s : Script} (h : s.Lines none) {d : FormDraft} (hd : d.Open)
    {name : String} {x : AnyDraft}
    (hrun : Draft.run (.ok (.startCollection (some name)) :: s ++ [.ok .endCollection])
      (AnyDraft.form d) = (.ok (), x)) :
    ∃ texts : List String, x = .form (d.extend (texts.map (name, ·))) := by
  obtain ⟨pairs, inRoot, collection⟩ := d
  obtain rfl : inRoot = true := hd.root
  obtain rfl : collection = none := hd.collection
  have hstart : Draft.call (.startCollection (some name)) (AnyDraft.form ⟨pairs, true, none⟩) =
      (.ok (), .form ⟨pairs, true, some name⟩) := rfl
  rw [List.cons_append, Draft.run, hstart] at hrun
  dsimp only at hrun
  obtain ⟨result, y, hs⟩ : ∃ result y,
      Draft.run s (AnyDraft.form ⟨pairs, true, some name⟩) = (result, y) := ⟨_, _, rfl⟩
  rw [Draft.run_append, hs] at hrun
  cases result with
  | error e => cases hrun
  | ok _ =>
      obtain ⟨texts, rfl⟩ := exists_of_run_lines h (by rfl) (by rfl) hs
      exact ⟨texts, (congrArg Prod.snd hrun).symm⟩

end Script

namespace Writing

variable {α β : Type} {layers : List Layer}

/-- Within a form, the step ends well and turns model `a` into `b`. -/
def Fills (layers : List Layer) (w : Writing α Unit) (a b : α) : Prop :=
  ∀ (d : FormDraft) (log : Log), d.Open → ∃ d' : FormDraft, d'.Open ∧
    w.runAt a ⟨.form d, layers, log⟩ = ((.ok (), b), ⟨.form d', layers, log⟩)

def Refused (layers : List Layer) (w : Writing α Unit) (a : α) : Prop :=
  ∀ (d : FormDraft) (log : Log), d.Open → ∃ e b o,
    w.runAt a ⟨.form d, layers, log⟩ = ((.error e, b), o)

theorem fills_pure (a : α) : Fills layers (pure ()) a a := fun d _ h => ⟨d, h, rfl⟩

theorem Fills.get {f : α → Writing α Unit} {a b : α} (h : Fills layers (f a) a b) :
    Fills layers (get >>= f) a b := by
  intro d log hd
  obtain ⟨d', hd', hrun⟩ := h d log hd
  exact ⟨d', hd', (runAt_bind_ok (runAt_get ..) f).trans hrun⟩

theorem Refused.get {f : α → Writing α Unit} {a : α} (h : Refused layers (f a) a) :
    Refused layers (get >>= f) a := by
  intro d log hd
  obtain ⟨e, b, o, hrun⟩ := h d log hd
  exact ⟨e, b, o, (runAt_bind_ok (runAt_get ..) f).trans hrun⟩

theorem Fills.bind {w w' : Writing α Unit} {a b c : α} (h : Fills layers w a b)
    (h' : Fills layers w' b c) : Fills layers (w >>= fun _ => w') a c := by
  intro d log hd
  obtain ⟨d', hd', hrun⟩ := h d log hd
  obtain ⟨d'', hd'', hrun'⟩ := h' d' log hd'
  exact ⟨d'', hd'', (runAt_bind_ok hrun _).trans hrun'⟩

theorem Fills.bind_refused {w w' : Writing α Unit} {a b : α} (h : Fills layers w a b)
    (h' : Refused layers w' b) : Refused layers (w >>= fun _ => w') a := by
  intro d log hd
  obtain ⟨d', hd', hrun⟩ := h d log hd
  obtain ⟨e, c, o, hrun'⟩ := h' d' log hd'
  exact ⟨e, c, o, (runAt_bind_ok hrun _).trans hrun'⟩

theorem Refused.bind {w : Writing α Unit} {a : α} (h : Refused layers w a)
    (f : Unit → Writing α Unit) : Refused layers (w >>= f) a := by
  intro d log hd
  obtain ⟨e, b, o, hrun⟩ := h d log hd
  exact ⟨e, b, o, runAt_bind_error hrun f⟩

/-- A call that a form takes in any state in which it takes fields. -/
theorem fills_call {c : Call}
    (h : ∀ d : FormDraft, d.Open → ∃ d', d'.Open ∧ d.call c = (.ok (), d')) (a : α) :
    Fills layers (call c) a a := by
  intro d log hd
  obtain ⟨d', hd', hcall⟩ := h d hd
  refine ⟨d', hd', ?_⟩
  rw [runAt_call, AnyDraft.call_form, hcall]

theorem refused_component {act : WriteM (Result Unit × β)}
    (h : ∀ (d : FormDraft) (log : Log), d.Open →
      ∃ e, (act.run ⟨.form d, layers, log⟩).1.1 = .error e)
    (back : β → α → α) (a : α) : Refused layers (component act back) a := by
  intro d log hd
  obtain ⟨e, he⟩ := h d log hd
  refine ⟨e, back (act.run ⟨.form d, layers, log⟩).1.2 a,
    (act.run ⟨.form d, layers, log⟩).2, ?_⟩
  rw [runAt_component, he]

end Writing

end Marshal
