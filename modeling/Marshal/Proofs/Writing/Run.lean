import Marshal.Writing

/-!
Runs of the writing of a model. `runAt` shows all that a step depends on and all that it leaves
behind: the model at hand and the output.
-/

namespace Marshal

namespace WriteM

variable {α β : Type}

theorem run_bind_of {act : WriteM α} {o o' : Output} {a : α} (h : act.run o = (a, o'))
    (f : α → WriteM β) : (act >>= f).run o = (f a).run o' := by
  show (f (act.run o).1).run (act.run o).2 = _
  rw [h]

end WriteM

namespace Output

@[simp] theorem run_call (c : Call) (o : Output) :
    (call c).run o =
      ((Draft.call c o.draft).1, { o with draft := (Draft.call c o.draft).2 }) := rfl

@[simp] theorem run_run (s : Script) (o : Output) :
    (run s).run o =
      ((Draft.run s o.draft).1, { o with draft := (Draft.run s o.draft).2 }) := rfl

@[simp] theorem run_writeAdditional (data : AdditionalData) (o : Output) :
    (writeAdditional data).run o =
      ((Draft.writeAdditional data o.draft).1,
        { o with draft := (Draft.writeAdditional data o.draft).2 }) := rfl

end Output

namespace Layer

/-- Layers that write and log nothing. -/
def Quiet (layers : List Layer) : Prop :=
  ∀ l ∈ layers, l = changes

theorem quiet_nil : Quiet [] := by
  simp [Quiet]

theorem quiet_replicate (n : Nat) : Quiet (List.replicate n changes) := by
  intro l hl
  exact (List.mem_replicate.mp hl).2

def seen (layers : List Layer) (phase : Phase) (g : Glance) : Glance :=
  if layers = [] then g else { g with onlyChanged := g.dirty.isSome && phase == .before }

theorem foldlM_observe_of_quiet {layers : List Layer} (h : Quiet layers) (phase : Phase)
    (g : Glance) (o : Output) :
    (layers.foldlM (Output.observe phase) g).run o = (seen layers phase g, o) := by
  induction layers generalizing g with
  | nil => rfl
  | cons l layers ih =>
      obtain rfl : l = changes := h l (by simp)
      have hrest : Quiet layers := fun l hl => h l (by simp [hl])
      rw [List.foldlM_cons]
      show (layers.foldlM (Output.observe phase)
        { g with onlyChanged := g.dirty.isSome && phase == .before }).run o = _
      rw [ih hrest]
      by_cases hl : layers = [] <;> simp [seen, hl]

theorem forM_startLayer_of_quiet {layers : List Layer} (h : Quiet layers) (g : Glance)
    (o : Output) : (layers.forM (Output.startLayer g)).run o = ((), o) := by
  induction layers with
  | nil => rfl
  | cons l layers ih =>
      obtain rfl : l = changes := h l (by simp)
      exact ih fun l hl => h l (by simp [hl])

end Layer

namespace Writing

variable {α β γ : Type}

/-- How a step ends for model `a` and output `o`, and what has become of both. -/
def runAt (w : Writing α β) (a : α) (o : Output) : (Result β × α) × Output :=
  ((ExceptT.run w).run a).run o

theorem run_exec (w : Writing α Unit) (a : α) (o : Output) : (w.exec a).run o = w.runAt a o := rfl

theorem runAt_bind (w : Writing α β) (f : β → Writing α γ) (a : α) (o : Output) :
    (w >>= f).runAt a o =
      match w.runAt a o with
      | ((.ok b, a), o) => (f b).runAt a o
      | ((.error e, a), o) => ((.error e, a), o) := by
  simp only [runAt, ExceptT.run_bind, StateT.run_bind]
  rcases ((ExceptT.run w).run a).run o with ⟨⟨r, a'⟩, o'⟩
  cases r <;> rfl

theorem runAt_bind_ok {w : Writing α β} {a a' : α} {o o' : Output} {b : β}
    (h : w.runAt a o = ((.ok b, a'), o')) (f : β → Writing α γ) :
    (w >>= f).runAt a o = (f b).runAt a' o' := by
  rw [runAt_bind, h]

theorem runAt_bind_error {w : Writing α β} {a a' : α} {o o' : Output} {e : Error}
    (h : w.runAt a o = ((.error e, a'), o')) (f : β → Writing α γ) :
    (w >>= f).runAt a o = ((.error e, a'), o') := by
  rw [runAt_bind, h]

/-- A step that ends well is made of steps that end well. -/
theorem exists_of_runAt_bind {w : Writing α β} {f : β → Writing α γ} {a b : α} {o p : Output}
    {c : γ} (h : (w >>= f).runAt a o = ((.ok c, b), p)) :
    ∃ d a' o', w.runAt a o = ((.ok d, a'), o') ∧ (f d).runAt a' o' = ((.ok c, b), p) := by
  rw [runAt_bind] at h
  rcases hw : w.runAt a o with ⟨⟨r, a'⟩, o'⟩
  rw [hw] at h
  cases r with
  | error e => cases h
  | ok d => exact ⟨d, a', o', rfl, h⟩

@[simp] theorem runAt_get (a : α) (o : Output) :
    (get : Writing α α).runAt a o = ((.ok a, a), o) := rfl

@[simp] theorem runAt_perform (act : WriteM (Result Unit)) (a : α) (o : Output) :
    (perform act).runAt a o = (((act.run o).1, a), (act.run o).2) := rfl

@[simp] theorem runAt_call (c : Call) (a : α) (o : Output) :
    (call c).runAt a o =
      (((Draft.call c o.draft).1, a), { o with draft := (Draft.call c o.draft).2 }) := rfl

@[simp] theorem runAt_script (s : Script) (a : α) (o : Output) :
    (script s).runAt a o =
      (((Draft.run s o.draft).1, a), { o with draft := (Draft.run s o.draft).2 }) := rfl

@[simp] theorem runAt_component (act : WriteM (Result Unit × β)) (back : β → α → α) (a : α)
    (o : Output) :
    (component act back).runAt a o =
      (((act.run o).1.1, back (act.run o).1.2 a), (act.run o).2) := rfl

theorem runAt_observe_eq (phase : Phase) (glance : α → Glance) (mark : Bool → α → α) (a : α)
    (o : Output) :
    (observe phase glance mark).runAt a o =
      ((.ok ((Output.observeAll phase (glance a)).run o).1,
        mark ((Output.observeAll phase (glance a)).run o).1.onlyChanged a),
        ((Output.observeAll phase (glance a)).run o).2) := rfl

theorem runAt_observe {o : Output} (h : Layer.Quiet o.layers) (phase : Phase)
    (glance : α → Glance) (mark : Bool → α → α) (a : α) :
    (observe phase glance mark).runAt a o =
      ((.ok (Layer.seen o.layers phase (glance a)),
        mark (Layer.seen o.layers phase (glance a)).onlyChanged a), o) := by
  have hrun : (Output.observeAll phase (glance a)).run o =
      (Layer.seen o.layers phase (glance a), o) :=
    Layer.foldlM_observe_of_quiet h phase (glance a) o
  rw [runAt_observe_eq, hrun]

theorem runAt_startAll {o : Output} (h : Layer.Quiet o.layers) (g : Glance) (a : α) :
    (liftM (liftM (Output.startAll g) : StateT α WriteM Unit) : Writing α Unit).runAt a o =
      ((.ok (), a), o) := by
  have hrun : (Output.startAll g).run o = ((), o) := Layer.forM_startLayer_of_quiet h g o
  show ((Except.ok ((Output.startAll g).run o).1, a), ((Output.startAll g).run o).2) = _
  rw [hrun]

/-! ### Steps that can end well -/

def Ends (w : Writing α β) : Prop :=
  ∃ a o b a' o', w.runAt a o = ((.ok b, a'), o')

/-- Nothing that a step is made of stands in its way. -/
theorem Ends.of_bind {w : Writing α β} {f : β → Writing α γ} (h : (w >>= f).Ends) :
    w.Ends ∧ ∃ b, (f b).Ends := by
  obtain ⟨a, o, c, b, p, hrun⟩ := h
  obtain ⟨d, a', o', hw, hf⟩ := exists_of_runAt_bind hrun
  exact ⟨⟨a, o, d, a', o', hw⟩, d, a', o', c, b, p, hf⟩

theorem Ends.fields {key : Option String} {subject : Subject} {glance : α → Glance}
    {mark : Bool → α → α} {fields : Writing α Unit}
    (h : (object key subject glance mark fields).Ends) : fields.Ends := by
  obtain ⟨-, _, hstart⟩ := h.of_bind
  obtain ⟨-, _, hlayers⟩ := hstart.of_bind
  obtain ⟨-, _, hfields⟩ := hlayers.of_bind
  exact hfields.of_bind.1

theorem Ends.of_script {s : Script} (h : (script s : Writing α Unit).Ends) :
    ∀ c ∈ s, ∃ call, c = .ok call := by
  obtain ⟨a, o, b, a', o', hrun⟩ := h
  have hdraft : (Draft.run s o.draft).1 = .ok b := congrArg (·.1.1) hrun
  clear hrun
  generalize o.draft = d at hdraft
  induction s generalizing d with
  | nil => exact List.forall_mem_nil _
  | cons c s ih =>
      cases c with
      | error e => cases hdraft
      | ok c =>
          rw [Draft.run] at hdraft
          refine List.forall_mem_cons.mpr ⟨⟨c, rfl⟩, ?_⟩
          split at hdraft
          · exact ih _ hdraft
          · cases hdraft

/-- A model that takes no marks comes back as it was. -/
theorem run_ofUnmarked (a : α) (w : Option String → Writing Unit Unit) (key : Option String)
    (o : Output) :
    ((Outgoing.ofUnmarked a w).write key).run o =
      ((((w key).runAt () o).1.1, a), ((w key).runAt () o).2) := rfl

theorem runAt_of_ofUnmarked {a b : α} {w : Option String → Writing Unit Unit} {key : Option String}
    {o o' : Output} {r : Result Unit}
    (h : ((Outgoing.ofUnmarked a w).write key).run o = ((r, b), o')) :
    (w key).runAt () o = ((r, ()), o') := by
  rw [run_ofUnmarked] at h
  rcases hw : (w key).runAt () o with ⟨⟨r', ⟨⟩⟩, o''⟩
  rw [hw] at h
  cases h
  rfl

/-! ### Objects between quiet layers -/

section Object

variable {o : Output} (hq : Layer.Quiet o.layers) (key : Option String) (subject : Subject)
  (glance : α → Glance) (mark : Bool → α → α) {fields : Writing α Unit} {a : α}

include hq

/-- An object that the draft refuses: the mark set beforehand stays on the model. -/
theorem runAt_object_refused (fields : Writing α Unit) {e : Error} {d : AnyDraft}
    (hstart : Draft.call (.startObject key subject) o.draft = (.error e, d)) :
    (object key subject glance mark fields).runAt a o =
      ((.error e, mark (Layer.seen o.layers .before (glance a)).onlyChanged a),
        { o with draft := d }) := by
  rw [object, runAt_bind_ok (runAt_observe hq .before glance mark a)]
  apply runAt_bind_error
  rw [runAt_call, hstart]

/-- An object that the draft takes: what is left to run, on the model with its mark. -/
theorem runAt_object_begun {d : AnyDraft}
    (hstart : Draft.call (.startObject key subject) o.draft = (.ok (), d)) :
    (object key subject glance mark fields).runAt a o =
      (do
        fields
        call .endObject
        discard (observe .after glance mark) : Writing α Unit).runAt
        (mark (Layer.seen o.layers .before (glance a)).onlyChanged a) { o with draft := d } := by
  have hcall (b : α) : (call (.startObject key subject) : Writing α Unit).runAt b o =
      ((.ok (), b), { o with draft := d }) := by
    rw [runAt_call, hstart]
  rw [object, runAt_bind_ok (runAt_observe hq .before glance mark a), runAt_bind_ok (hcall _),
    runAt_bind_ok (runAt_startAll (by exact hq) _ _)]

/-- An object whose fields fail: what they leave of the model stays. -/
theorem runAt_object_failed {e : Error} {d : AnyDraft} {a' : α} {o' : Output}
    (hstart : Draft.call (.startObject key subject) o.draft = (.ok (), d))
    (hfields : fields.runAt (mark (Layer.seen o.layers .before (glance a)).onlyChanged a)
      { o with draft := d } = ((.error e, a'), o')) :
    (object key subject glance mark fields).runAt a o = ((.error e, a'), o') := by
  rw [runAt_object_begun hq key subject glance mark hstart]
  exact runAt_bind_error hfields _

/-- An object that is written: the mark is taken off again. -/
theorem runAt_object_ok {d d' : AnyDraft} {a' : α} {o' : Output}
    (hstart : Draft.call (.startObject key subject) o.draft = (.ok (), d))
    (hfields : fields.runAt (mark (Layer.seen o.layers .before (glance a)).onlyChanged a)
      { o with draft := d } = ((.ok (), a'), o'))
    (hlayers : o'.layers = o.layers) (hend : Draft.call .endObject o'.draft = (.ok (), d')) :
    (object key subject glance mark fields).runAt a o =
      ((.ok (), mark (Layer.seen o.layers .after (glance a')).onlyChanged a'),
        { o' with draft := d' }) := by
  have hcall : (call .endObject : Writing α Unit).runAt a' o' =
      ((.ok (), a'), { o' with draft := d' }) := by
    rw [runAt_call, hend]
  have hafter : (observe .after glance mark).runAt a' { o' with draft := d' } =
      ((.ok (Layer.seen o.layers .after (glance a')),
        mark (Layer.seen o.layers .after (glance a')).onlyChanged a'),
        { o' with draft := d' }) := by
    rw [← hlayers]
    exact runAt_observe (by exact hlayers ▸ hq) .after glance mark a'
  rw [runAt_object_begun hq key subject glance mark hstart, runAt_bind_ok hfields,
    runAt_bind_ok hcall]
  exact runAt_bind_ok hafter fun _ => pure ()

end Object

end Writing

end Marshal
