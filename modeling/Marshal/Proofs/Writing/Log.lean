import Marshal.Models.AnyModel
import Marshal.Proofs.Profile.Writing

/-!
The log of a writing. A writing adds to it and never looks back: what was logged before stays in
front and has no effect on anything else. So a model can be written alone to find out what it
becomes as a part of something larger.
-/

namespace Marshal

def Output.after (earlier : Log) (o : Output) : Output :=
  { o with log := earlier ++ o.log }

namespace WriteM

variable {α β : Type}

/-- A step that takes no notice of what has been logged. -/
def Appends (act : WriteM α) : Prop :=
  ∀ (earlier : Log) (o : Output),
    act.run (o.after earlier) = ((act.run o).1, (act.run o).2.after earlier)

theorem appends_pure (a : α) : Appends (pure a) := fun _ _ => rfl

theorem Appends.bind {act : WriteM α} {f : α → WriteM β} (h : Appends act)
    (hf : ∀ a, Appends (f a)) : Appends (act >>= f) := by
  intro earlier o
  have hrun : act.run o = ((act.run o).1, (act.run o).2) := rfl
  rw [run_bind_of (h earlier o), run_bind_of hrun, hf]

theorem appends_onDraft (f : AnyDraft → α × AnyDraft) : Appends (Output.onDraft f) :=
  fun _ _ => rfl

theorem appends_addLog (e : Event) : Appends (Output.addLog e) := by
  intro earlier o
  have hassoc : earlier ++ o.log ++ [e] = earlier ++ (o.log ++ [e]) := List.append_assoc ..
  show ((), { o with log := earlier ++ o.log ++ [e] }) = _
  rw [hassoc]
  rfl

/-- The layers are all that a step may ask the output for. -/
theorem appends_layers {f : List Layer → WriteM α} (h : ∀ ls, Appends (f ls)) :
    Appends (get >>= fun o : Output => f o.layers) :=
  fun earlier o => h o.layers earlier o

theorem appends_aside {act : WriteM α} (h : Appends act) (draft : AnyDraft) (layers : List Layer) :
    Appends (Output.aside draft layers act) := by
  intro earlier o
  have hact : act.run { draft, layers, log := earlier ++ o.log } =
      ((act.run { draft, layers, log := o.log }).1,
        (act.run { draft, layers, log := o.log }).2.after earlier) :=
    h earlier { draft, layers, log := o.log }
  show ((act.run { draft, layers, log := earlier ++ o.log }).1,
    { o with log := (act.run { draft, layers, log := earlier ++ o.log }).2.log }) = _
  rw [hact]
  rfl

/-- With nothing logged before, the rest comes out as it would after anything else. -/
theorem Appends.run_fst {act : WriteM α} (h : Appends act) (d : AnyDraft) (ls : List Layer)
    (log : Log) : (act.run ⟨d, ls, log⟩).1 = (act.run ⟨d, ls, []⟩).1 := by
  have hempty : (Output.after log ⟨d, ls, []⟩) = ⟨d, ls, log⟩ := by simp [Output.after]
  rw [← hempty, h log ⟨d, ls, []⟩]

/-- What is written aside comes out as if nothing had been logged. -/
theorem Appends.run_aside {act : WriteM α} (h : Appends act) {out out' : Output} {a : α}
    (hlog : out.log = []) (hrun : act.run out = (a, out')) (o : Output) :
    ∃ log, (Output.aside out.draft out.layers act).run o = (a, { o with log }) := by
  have hfst : (act.run ⟨out.draft, out.layers, o.log⟩).1 = a := by
    rw [h.run_fst, ← hlog, hrun]
  refine ⟨(act.run ⟨out.draft, out.layers, o.log⟩).2.log, ?_⟩
  rw [← hfst]
  rfl

end WriteM

namespace Output

open WriteM

theorem appends_observe (phase : Phase) (g : Glance) (l : Layer) : Appends (observe phase g l) := by
  cases l with
  | changes => exact appends_pure _
  | observer o =>
      rw [observe]
      generalize (if phase = .before then o.before else o.after) = seen
      cases seen with
      | false => exact appends_pure g
      | true => exact (appends_addLog _).bind fun _ => appends_pure g

theorem appends_observeAll (phase : Phase) (g : Glance) : Appends (observeAll phase g) := by
  refine appends_layers (f := fun ls => ls.foldlM (observe phase) g) fun ls => ?_
  induction ls generalizing g with
  | nil => exact appends_pure g
  | cons l ls ih =>
      rw [List.foldlM_cons]
      exact (appends_observe phase g l).bind ih

theorem appends_startLayer (g : Glance) (l : Layer) : Appends (startLayer g l) := by
  cases l with
  | changes => exact appends_pure ()
  | observer o =>
      rw [startLayer]
      split
      · refine Appends.bind ?_ fun r => ?_
        · rw [startValue]
          split
          · exact appends_onDraft _
          · exact appends_pure _
        · cases r with
          | ok _ | error _ => exact appends_addLog _
      · exact appends_pure ()

theorem appends_startAll (g : Glance) : Appends (startAll g) := by
  refine appends_layers (f := fun ls => ls.forM (startLayer g)) fun ls => ?_
  induction ls with
  | nil => exact appends_pure ()
  | cons l ls ih => exact (appends_startLayer g l).bind fun _ => ih

end Output

/-! ### The writing of models -/

namespace Writing

variable {α β γ : Type}

def Appends (w : Writing α β) : Prop :=
  ∀ (a : α) (earlier : Log) (o : Output),
    w.runAt a (o.after earlier) = ((w.runAt a o).1, (w.runAt a o).2.after earlier)

theorem appends_pure (b : β) : Appends (pure b : Writing α β) := fun _ _ _ => rfl

theorem appends_throw (e : Error) : Appends (throw e : Writing α β) := fun _ _ _ => rfl

theorem appends_get : Appends (get : Writing α α) := fun _ _ _ => rfl

theorem Appends.bind {w : Writing α β} {f : β → Writing α γ} (h : Appends w)
    (hf : ∀ b, Appends (f b)) : Appends (w >>= f) := by
  intro a earlier o
  rw [runAt_bind, runAt_bind, h a earlier o]
  rcases w.runAt a o with ⟨⟨r, a'⟩, o'⟩
  cases r with
  | ok b => exact hf b a' earlier o'
  | error e => rfl

theorem appends_perform {act : WriteM (Result Unit)} (h : WriteM.Appends act) :
    Appends (perform act : Writing α Unit) := by
  intro a earlier o
  rw [runAt_perform, runAt_perform, h earlier o]

theorem appends_call (c : Call) : Appends (call c : Writing α Unit) :=
  appends_perform (WriteM.appends_onDraft _)

theorem appends_script (s : Script) : Appends (script s : Writing α Unit) :=
  appends_perform (WriteM.appends_onDraft _)

theorem appends_component {act : WriteM (Result Unit × β)} (h : WriteM.Appends act)
    (back : β → α → α) : Appends (component act back) := by
  intro a earlier o
  rw [runAt_component, runAt_component, h earlier o]

theorem appends_observe (phase : Phase) (glance : α → Glance) (mark : Bool → α → α) :
    Appends (observe phase glance mark) := by
  intro a earlier o
  rw [runAt_observe_eq, runAt_observe_eq, Output.appends_observeAll phase (glance a) earlier o]

theorem appends_startAll (g : Glance) :
    Appends (liftM (liftM (Output.startAll g) : StateT α WriteM Unit) : Writing α Unit) := by
  intro a earlier o
  show ((Except.ok ((Output.startAll g).run (o.after earlier)).1, a),
    ((Output.startAll g).run (o.after earlier)).2) = _
  rw [Output.appends_startAll g earlier o]
  rfl

theorem appends_object (key : Option String) (subject : Subject) (glance : α → Glance)
    (mark : Bool → α → α) {fields : Writing α Unit} (h : Appends fields) :
    Appends (object key subject glance mark fields) := by
  rw [object]
  refine (appends_observe .before glance mark).bind fun g => ?_
  refine (appends_call _).bind fun _ => (appends_startAll g).bind fun _ => h.bind fun _ => ?_
  refine (appends_call _).bind fun _ => ?_
  exact (appends_observe .after glance mark).bind fun _ => appends_pure ()

theorem Appends.exec {w : Writing α Unit} (h : Appends w) (a : α) : WriteM.Appends (w.exec a) :=
  h a

end Writing

namespace Outgoing

variable {α β : Type}

def Appends (o : Outgoing α) : Prop :=
  ∀ key, WriteM.Appends (o.write key)

theorem Appends.map {o : Outgoing α} (h : o.Appends) (f : α → β) : (o.map f).Appends := fun key =>
  (h key).bind fun _ => WriteM.appends_pure _

theorem appends_ofUnmarked (a : α) {w : Option String → Writing Unit Unit}
    (h : ∀ key, (w key).Appends) : (ofUnmarked a w).Appends := fun key =>
  ((h key).exec ()).bind fun _ => WriteM.appends_pure _

theorem appends_writeEach {os : List (Outgoing α)} (h : ∀ o ∈ os, o.Appends) :
    WriteM.Appends (writeEach os) := by
  induction os with
  | nil => exact WriteM.appends_pure _
  | cons o os ih =>
      obtain ⟨ho, hos⟩ := List.forall_mem_cons.mp h
      refine (ho none).bind fun (r, a) => ?_
      cases r with
      | error e => exact WriteM.appends_pure _
      | ok _ => exact (ih hos).bind fun _ => WriteM.appends_pure _

theorem appends_writeList (key : Option String) {os : List (Outgoing α)}
    (h : ∀ o ∈ os, o.Appends) : WriteM.Appends (writeList key os) := by
  refine (WriteM.appends_onDraft _).bind fun r => ?_
  cases r with
  | error e => exact WriteM.appends_pure _
  | ok _ =>
      refine (appends_writeEach h).bind fun (r, as) => ?_
      cases r with
      | error e => exact WriteM.appends_pure _
      | ok _ => exact (WriteM.appends_onDraft _).bind fun _ => WriteM.appends_pure _

end Outgoing

open Writing

theorem Contact.appends_outgoing (c : Contact) : (Writable.outgoing c).Appends :=
  Outgoing.appends_ofUnmarked c fun key =>
    appends_object key _ _ _ (appends_script _)

theorem DirectoryObject.appends_outgoing (o : DirectoryObject) : (Writable.outgoing o).Appends :=
  Outgoing.appends_ofUnmarked o fun key =>
    appends_object key _ _ _ (appends_script _)

namespace Employee

mutual

theorem appends_write : ∀ (e : Employee) (key : Option String), (e.write key).Appends
  | ⟨particulars, manager, colleagues, additional⟩, key => by
      rw [write]
      refine appends_object key _ _ _ ((appends_script _).bind fun _ => ?_)
      refine (appends_writeManager manager).bind fun _ => ?_
      exact (appends_writeColleagues colleagues).bind fun _ =>
        appends_perform (WriteM.appends_onDraft _)

theorem appends_writeManager : ∀ manager : Option Employee, (writeManager manager).Appends
  | none => appends_pure ()
  | some m => by
      rw [writeManager]
      exact appends_write m (some "manager")

theorem appends_writeColleagues :
    ∀ colleagues : Option (List Employee), (writeColleagues colleagues).Appends
  | none => appends_pure ()
  | some es => by
      rw [writeColleagues]
      exact (appends_call _).bind fun _ => (appends_writeEach es).bind fun _ => appends_call _

theorem appends_writeEach : ∀ es : List Employee, (writeEach es).Appends
  | [] => appends_pure ()
  | e :: es => by
      rw [writeEach]
      exact (appends_write e none).bind fun _ => appends_writeEach es

end

theorem appends_outgoing (e : Employee) : (Writable.outgoing e).Appends :=
  Outgoing.appends_ofUnmarked e (appends_write e)

end Employee

namespace Profile

theorem appends_writeText (property : Property) : (writeText property).Appends :=
  appends_get.bind fun _ => appends_call _

theorem appends_writeNulls (keys : List String) : (writeNulls keys).Appends := by
  induction keys with
  | nil => exact appends_pure ()
  | cons key keys ih => exact (appends_call _).bind fun _ => ih

/-- What an entry holds of models ready to be written is what it holds of models. -/
theorem nested_outgoingHeld (h : Held Store) :
    (outgoingHeld h).nested = h.nested.map outgoing := by
  cases h with
  | models ms => exact outgoingAll_eq ms
  | _ => rfl

section

variable {es : List (Entry (Outgoing Store))} (hes : ∀ e ∈ es, ∀ m ∈ e.held.nested, m.Appends)
include hes

theorem appends_of_shown? {p : Profile} {property : Property} {h : Held (Outgoing Store)}
    (hshown : shown? p es property = some h) : ∀ m ∈ h.nested, m.Appends := by
  rw [shown?] at hshown
  split at hshown
  · obtain ⟨e, he, rfl⟩ := Option.map_eq_some_iff.mp hshown
    exact hes e (List.mem_of_find?_eq_some he)
  · cases hshown

theorem appends_writeManager : (writeManager es).Appends := by
  refine appends_get.bind fun p => ?_
  cases hm : (shown? p es .manager).bind Held.model? with
  | none => exact appends_pure ()
  | some m =>
      obtain ⟨h, hshown, hmodel⟩ := Option.bind_eq_some_iff.mp hm
      have hmem : m ∈ h.nested := by
        cases h <;> simp_all [Held.model?, Held.nested]
      exact appends_component (appends_of_shown? hes hshown m hmem _) _

theorem appends_writeReports : (writeReports es).Appends := by
  refine appends_get.bind fun p => ?_
  cases hms : (shown? p es .reports).bind Held.models? with
  | none => exact appends_pure ()
  | some ms =>
      obtain ⟨h, hshown, hmodels⟩ := Option.bind_eq_some_iff.mp hms
      obtain rfl : h = .models ms := by
        cases h <;> simp_all [Held.models?]
      exact appends_component
        (Outgoing.appends_writeList _ (appends_of_shown? hes hshown)) _

theorem appends_write (key : Option String) : (write es key).Appends := by
  refine appends_object key _ _ _ ?_
  refine (appends_writeText .id).bind fun _ => (appends_writeText .displayName).bind fun _ => ?_
  refine (appends_writeText .jobTitle).bind fun _ => (appends_writeManager hes).bind fun _ => ?_
  refine (appends_writeReports hes).bind fun _ => ?_
  exact appends_get.bind fun _ => appends_writeNulls _

end

theorem appends_outgoing (p : Profile) : (outgoing p).Appends := by
  induction p using Store.induct with
  | step p ih =>
      intro key
      rw [write_outgoing]
      refine (appends_write ?_ key).exec p
      rw [outgoingEntries_eq]
      simp only [List.mem_map, forall_exists_index, and_imp, forall_apply_eq_imp_iff₂,
        nested_outgoingHeld]
      exact ih

end Profile

/-! ### Multipart bodies -/

namespace MultipartBody

variable {M : Type}

def ContentAppends : PartContent (Outgoing M) → Prop
  | .object o => o.Appends
  | _ => True

/-- A model written to a payload of its own. -/
theorem appends_finished {o : Outgoing M} (h : o.Appends) :
    WriteM.Appends (do
      let (r, m) ← o.write none
      match r with
      | .error e => return ((.error e : Result Bytes), PartContent.object m)
      | .ok () => return (← Output.finish, PartContent.object m)) :=
  (h none).bind fun (r, m) => by
    cases r with
    | error e => exact WriteM.appends_pure _
    | ok _ => exact (WriteM.appends_onDraft _).bind fun _ => WriteM.appends_pure _

theorem appends_contentBytes (encoders : Encoders) (contentType : String)
    {c : PartContent (Outgoing M)} (h : ContentAppends c) :
    WriteM.Appends (contentBytes encoders contentType c) := by
  cases c with
  | text s => exact WriteM.appends_pure _
  | binary b => exact WriteM.appends_pure _
  | object o =>
      rw [contentBytes]
      cases encoders.output contentType with
      | error e => exact WriteM.appends_pure _
      | ok out => exact WriteM.appends_aside (appends_finished h) _ _

theorem appends_writePart (boundary : String) (encoders : Encoders) {p : Part (Outgoing M)}
    (h : ContentAppends p.content) : WriteM.Appends (writePart boundary encoders p) := by
  refine (WriteM.appends_onDraft _).bind fun r => ?_
  cases r with
  | error e => exact WriteM.appends_pure _
  | ok _ =>
      refine WriteM.Appends.bind ?_ fun (_, _) => WriteM.appends_pure _
      refine (appends_contentBytes encoders p.contentType h).bind fun (r, c) => ?_
      cases r with
      | error e => exact WriteM.appends_pure _
      | ok _ => exact (WriteM.appends_onDraft _).bind fun _ => WriteM.appends_pure _

theorem appends_writeParts (boundary : String) (encoders : Encoders)
    {ps : Members (Part (Outgoing M))} (h : ∀ p ∈ ps, ContentAppends p.2.content) :
    WriteM.Appends (writeParts boundary encoders ps) := by
  induction ps with
  | nil => exact WriteM.appends_pure _
  | cons p ps ih =>
      obtain ⟨hp, hps⟩ := List.forall_mem_cons.mp h
      refine (appends_writePart boundary encoders hp).bind fun (r, _) => ?_
      cases r with
      | error e => exact WriteM.appends_pure _
      | ok _ => exact (ih hps).bind fun (_, _) => WriteM.appends_pure _

theorem appends_write {ps : Members (Part (Outgoing M))} (h : ∀ p ∈ ps, ContentAppends p.2.content)
    (key : Option String) (b : MultipartBody M) : WriteM.Appends (write ps key b) := by
  rw [write]
  refine Writing.Appends.exec (Writing.appends_object key _ _ _ ?_) b
  have hrest : Writing.Appends (do
      .component (writeParts b.boundary b.encoders ps) fun parts b => { b with parts }
      .call (.string none (some ("--" ++ b.boundary ++ "--"))) : Writing (MultipartBody M) Unit) :=
    (appends_component (appends_writeParts _ _ h) _).bind fun _ => appends_call _
  split
  · exact (appends_throw _).bind fun _ => hrest
  · exact hrest

end MultipartBody

namespace AnyModel

mutual

/-- No model takes notice of what has been logged. -/
theorem appends_outgoing : ∀ m : AnyModel, m.outgoing.Appends
  | employee e => (Employee.appends_outgoing e).map employee
  | contact c => (Contact.appends_outgoing c).map contact
  | directoryObject o => (DirectoryObject.appends_outgoing o).map directoryObject
  | profile p => (Profile.appends_outgoing p).map profile
  | body ⟨boundary, parts, encoders⟩ => by
      intro key
      rw [outgoing]
      exact (MultipartBody.appends_write (appends_outgoingParts parts) key _).bind fun (_, _) =>
        WriteM.appends_pure _

theorem appends_outgoingParts : ∀ ps : List (String × Part AnyModel),
    ∀ p ∈ outgoingParts ps, MultipartBody.ContentAppends p.2.content
  | [] => List.forall_mem_nil _
  | (key, ⟨name, contentType, fileName, content⟩) :: ps => by
      rw [outgoingParts]
      exact List.forall_mem_cons.mpr ⟨appends_outgoingContent content, appends_outgoingParts ps⟩

theorem appends_outgoingContent : ∀ c : PartContent AnyModel,
    MultipartBody.ContentAppends (outgoingContent c)
  | .object m => appends_outgoing m
  | .text _ => trivial
  | .binary _ => trivial

end

end AnyModel

end Marshal
