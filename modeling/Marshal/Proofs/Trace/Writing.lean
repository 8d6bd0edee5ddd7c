import Marshal.Proofs.Trace.Block

/-!
Writing between layers that only record. A model is a tree of pieces, whatever the layers are; they
weave their events into the steps that write it, and the writing is these steps and nothing else,
also where it fails.
-/

namespace Marshal

inductive Step
  | script (s : Script)
  | additional (data : AdditionalData)
  | event (e : Event)

namespace Step

def perform : Step → WriteM (Result Unit)
  | script s => Output.run s
  | additional data => Output.writeAdditional data
  | event e => do
    Output.addLog e
    return .ok ()

/-- Performs steps up to the first that fails. -/
def performAll : List Step → WriteM (Result Unit)
  | [] => return .ok ()
  | s :: ss => do
    match ← s.perform with
    | .ok () => performAll ss
    | .error e => return .error e

def leaving {α : Type} (a : α) (ss : List Step) : WriteM (Result Unit × α) :=
  (·, a) <$> performAll ss

def event? : Step → Option Event
  | event e => some e
  | _ => none

def events (ss : List Step) : Log :=
  ss.filterMap event?

theorem events_append (ss ts : List Step) : events (ss ++ ts) = events ss ++ events ts :=
  List.filterMap_append

@[simp] theorem events_map_event (l : Log) : events (l.map event) = l :=
  (List.filterMap_map ..).trans (List.filterMap_some ..)

/-! ### Runs of steps -/

theorem run_performAll_cons (s : Step) (ss : List Step) (o : Output) :
    (performAll (s :: ss)).run o =
      match s.perform.run o with
      | (.ok (), o) => (performAll ss).run o
      | (.error e, o) => (.error e, o) := by
  rcases h : s.perform.run o with ⟨r, o'⟩
  rw [performAll, WriteM.run_bind_of h]
  cases r <;> rfl

theorem run_performAll_append (ss ts : List Step) (o : Output) :
    (performAll (ss ++ ts)).run o =
      match (performAll ss).run o with
      | (.ok (), o) => (performAll ts).run o
      | (.error e, o) => (.error e, o) := by
  induction ss generalizing o with
  | nil => rfl
  | cons s ss ih =>
      rw [List.cons_append, run_performAll_cons, run_performAll_cons]
      rcases s.perform.run o with ⟨r, o'⟩
      cases r with
      | ok _ => exact ih o'
      | error e => rfl

theorem run_performAll_singleton (s : Step) (o : Output) :
    (performAll [s]).run o = s.perform.run o := by
  rw [run_performAll_cons]
  rcases s.perform.run o with ⟨r, o'⟩
  cases r <;> rfl

theorem run_performAll_events (l : Log) (o : Output) :
    (performAll (l.map event)).run o = (.ok (), o.logged l) := by
  induction l generalizing o with
  | nil => exact congrArg (Except.ok (), ·) o.logged_nil.symm
  | cons e l ih =>
      have he : (event e).perform.run o = (.ok (), o.logged [e]) := rfl
      rw [List.map_cons, run_performAll_cons, he]
      exact (ih _).trans (by rw [Output.logged_logged, List.singleton_append])

theorem layers_perform (s : Step) (o : Output) : (s.perform.run o).2.layers = o.layers := by
  cases s <;> rfl

theorem layers_performAll (ss : List Step) (o : Output) :
    ((performAll ss).run o).2.layers = o.layers := by
  induction ss generalizing o with
  | nil => rfl
  | cons s ss ih =>
      have hs := layers_perform s o
      rw [run_performAll_cons]
      rcases hrun : s.perform.run o with ⟨r, o'⟩
      rw [hrun] at hs
      cases r with
      | ok _ => exact (ih o').trans hs
      | error e => exact hs

/-- However a step ends, it logs the event that it is, or nothing. -/
theorem log_perform (s : Step) (o : Output) : (s.perform.run o).2.log = o.log ++ events [s] := by
  cases s with
  | event e => rfl
  | script _ | additional _ => exact (List.append_nil o.log).symm

/-- Steps that all end well log the events among them. -/
theorem log_performAll {ss : List Step} {o o' : Output}
    (h : (performAll ss).run o = (.ok (), o')) : o'.log = o.log ++ events ss := by
  induction ss generalizing o with
  | nil =>
      cases h
      exact (List.append_nil _).symm
  | cons s ss ih =>
      have hs := log_perform s o
      rw [run_performAll_cons] at h
      rcases hrun : s.perform.run o with ⟨r, p⟩
      rw [hrun] at h hs
      cases r with
      | error e => cases h
      | ok _ => rw [ih h, hs, List.append_assoc, ← events_append, List.singleton_append]

end Step

/-! ### Pieces -/

/-- A piece of what a model writes. An object has its model seen by whatever layers there are. -/
inductive Piece
  | script (s : Script)
  | additional (data : AdditionalData)
  | object (key : Option String) (g : Glance) (pieces : List Piece)

namespace Piece

mutual

/-- The steps that write a piece. Layers see a model before its object, then when the object has
been opened and nothing has been written to it yet, and last when it has been closed. -/
def steps (ls : List Observer) : Piece → List Step
  | script s => [.script s]
  | additional data => [.additional data]
  | object key g pieces =>
    (Layer.block ls .before g).map .event ++
      (.script [.ok (.startObject key .model)] ::
        ((Layer.block ls .start g).map .event ++
          (stepsAll ls pieces ++
            .script [.ok .endObject] :: (Layer.block ls .after g).map .event)))

def stepsAll (ls : List Observer) : List Piece → List Step
  | [] => []
  | p :: ps => p.steps ls ++ stepsAll ls ps

end

mutual

/-- The events of a piece: for an object those before and at its start, then those of the objects
within it in their order, then those after it. -/
def trace (ls : List Observer) : Piece → Log
  | object _ g pieces =>
    Layer.block ls .before g ++ (Layer.block ls .start g ++
      (traceAll ls pieces ++ Layer.block ls .after g))
  | _ => []

def traceAll (ls : List Observer) : List Piece → Log
  | [] => []
  | p :: ps => p.trace ls ++ traceAll ls ps

end

theorem stepsAll_append (ls : List Observer) (ps qs : List Piece) :
    stepsAll ls (ps ++ qs) = stepsAll ls ps ++ stepsAll ls qs := by
  induction ps with
  | nil => rfl
  | cons p ps ih => rw [List.cons_append, stepsAll, stepsAll, ih, List.append_assoc]

@[simp] theorem stepsAll_singleton (ls : List Observer) (p : Piece) :
    stepsAll ls [p] = p.steps ls := by
  rw [stepsAll, stepsAll, List.append_nil]

mutual

theorem events_steps (ls : List Observer) : ∀ p : Piece, Step.events (p.steps ls) = p.trace ls
  | script _ => rfl
  | additional _ => rfl
  | object key g pieces => by
      have hscript (s : Script) (ss : List Step) :
          Step.events (.script s :: ss) = Step.events ss := rfl
      rw [steps, trace]
      simp only [Step.events_append, hscript, Step.events_map_event, events_stepsAll ls pieces]

theorem events_stepsAll (ls : List Observer) :
    ∀ ps : List Piece, Step.events (stepsAll ls ps) = traceAll ls ps
  | [] => rfl
  | p :: ps => by
      rw [stepsAll, traceAll, Step.events_append, events_steps ls p, events_stepsAll ls ps]

end

end Piece

/-! ### Writing as a row of steps -/

theorem Draft.run_singleton {σ : Type} [Draft σ] (c : Call) (d : σ) :
    Draft.run [.ok c] d = Draft.call c d := by
  rw [Draft.run]
  rcases Draft.call c d with ⟨r, d'⟩
  cases r <;> rfl

theorem Output.call_eq (c : Call) : Output.call c = Output.run [.ok c] :=
  congrArg Output.onDraft (funext fun d => (Draft.run_singleton c d).symm)

variable {α β : Type} {ls : List Observer}

namespace WriteM

theorem run_map {γ δ : Type} (f : γ → δ) (act : WriteM γ) (o : Output) :
    (f <$> act).run o = (f (act.run o).1, (act.run o).2) := rfl

variable {γ δ : Type} {act : WriteM γ} {back : Result Unit → γ} {ss ts : List Step}

/-- Between the layers, `act` does what the steps do, and gives back what it makes of their outcome.
-/
def Performs (ls : List Observer) (act : WriteM γ) (back : Result Unit → γ) (ss : List Step) :
    Prop :=
  ∀ o : Output, o.layers = ls.map .observer → act.run o = (back <$> Step.performAll ss).run o

theorem Performs.run {o o' : Output} {r : Result Unit} (h : Performs ls act back ss)
    (ho : o.layers = ls.map .observer) (hrun : (Step.performAll ss).run o = (r, o')) :
    act.run o = (back r, o') := by
  rw [h o ho, run_map, hrun]

/-- Writing goes on where a row of steps ends well. -/
theorem Performs.bind (h : Performs ls act back ss) {f : γ → WriteM δ} {back' : Result Unit → δ}
    (hok : Performs ls (f (back (.ok ()))) back' ts)
    (herror : ∀ e, f (back (.error e)) = pure (back' (.error e))) :
    Performs ls (act >>= f) back' (ss ++ ts) := by
  intro o ho
  have hlayers := Step.layers_performAll ss o
  rw [run_map, Step.run_performAll_append]
  rcases hrun : (Step.performAll ss).run o with ⟨r, o'⟩
  rw [hrun] at hlayers
  rw [run_bind_of (h.run ho hrun)]
  cases r with
  | ok _ => exact hok o' (hlayers.trans ho)
  | error e => exact congrArg (·.run o') (herror e)

theorem performs_pure (back : Result Unit → γ) : Performs ls (pure (back (.ok ()))) back [] :=
  fun _ _ => rfl

/-- Something else may be made of the outcome. -/
theorem Performs.andThen (h : Performs ls act back ss) {f : γ → WriteM δ}
    {back' : Result Unit → δ} (hf : ∀ r, f (back r) = pure (back' r)) :
    Performs ls (act >>= f) back' ss := by
  have hpure : Performs ls (pure (back' (.ok ()))) back' [] := performs_pure back'
  rw [← hf] at hpure
  have hbind := h.bind hpure fun e => hf (.error e)
  rwa [List.append_nil] at hbind

theorem performs_call (c : Call) : Performs ls (Output.call c) id [.script [.ok c]] := by
  intro o _
  rw [Output.call_eq, id_map, Step.run_performAll_singleton]
  rfl

end WriteM

namespace Writing

def Performs (ls : List Observer) (w : Writing α Unit) (a : α) (ss : List Step) : Prop :=
  WriteM.Performs ls (w.exec a) (·, a) ss

theorem performs_pure (a : α) : Performs ls (pure ()) a [] := fun _ _ => rfl

theorem Performs.get {f : α → Writing α Unit} {a : α} {ss : List Step}
    (h : Performs ls (f a) a ss) : Performs ls (get >>= f) a ss := fun o ho =>
  (runAt_bind_ok (runAt_get a o) f).trans (h o ho)

theorem exec_bind (w : Writing α Unit) (f : Unit → Writing α Unit) (a : α) :
    (w >>= f).exec a = w.exec a >>= fun
      | (.ok b, a) => (f b).exec a
      | (.error e, a) => pure (.error e, a) := by
  funext o
  show (w >>= f).runAt a o = _
  rcases hw : w.runAt a o with ⟨⟨r, a'⟩, o'⟩
  rw [runAt_bind, hw]
  refine Eq.trans ?_ (WriteM.run_bind_of hw _).symm
  cases r <;> rfl

theorem Performs.bind {w : Writing α Unit} {f : Unit → Writing α Unit} {a : α}
    {ss ts : List Step} (h : Performs ls w a ss) (h' : Performs ls (f ()) a ts) :
    Performs ls (w >>= f) a (ss ++ ts) := by
  rw [Performs, exec_bind]
  exact WriteM.Performs.bind h h' fun _ => rfl

theorem performs_perform (s : Step) (a : α) : Performs ls (perform s.perform) a [s] := by
  intro o _
  rw [run_exec, runAt_perform, ← Step.run_performAll_singleton]
  rfl

theorem performs_script (s : Script) (a : α) : Performs ls (script s) a [.script s] :=
  performs_perform (.script s) a

theorem performs_additional (data : AdditionalData) (a : α) :
    Performs ls (perform (Output.writeAdditional data)) a [.additional data] :=
  performs_perform (.additional data) a

theorem performs_call (c : Call) (a : α) : Performs ls (call c) a [.script [.ok c]] := by
  rw [call, Output.call_eq]
  exact performs_script [.ok c] a

theorem performs_component {act : WriteM (Result Unit × β)} {b : β} {ss : List Step}
    (h : WriteM.Performs ls act (·, b) ss) {back : β → α → α} {a : α} (hback : back b a = a) :
    Performs ls (component act back) a ss := by
  intro o ho
  rw [run_exec, runAt_component, h o ho]
  exact congrArg (fun b => ((_, b), _)) hback

/-! ### Objects -/

section Object

variable {glance : α → Glance} {mark : Bool → α → α} {a : α}

/-- Layers log a block where they see a model, and hand on what they see. -/
theorem runAt_observe_logged {phase : Phase} (hp : Layer.Outer phase) {o : Output}
    (ho : o.layers = ls.map .observer) (hmark : mark (glance a).onlyChanged a = a) :
    (observe phase glance mark).runAt a o =
      ((.ok (glance a), a), o.logged (Layer.block ls phase (glance a))) := by
  have hrun : (Output.observeAll phase (glance a)).run o =
      (glance a, o.logged (Layer.block ls phase (glance a))) := by
    show (o.layers.foldlM (Output.observe phase) (glance a)).run o = _
    rw [ho, Layer.foldlM_observe hp]
  rw [runAt_observe_eq, hrun, hmark]

theorem performs_observe {phase : Phase} (hp : Layer.Outer phase)
    (hmark : mark (glance a).onlyChanged a = a) {f : Glance → Writing α Unit} {ss : List Step}
    (h : Performs ls (f (glance a)) a ss) :
    Performs ls (observe phase glance mark >>= f) a
      ((Layer.block ls phase (glance a)).map .event ++ ss) := by
  intro o ho
  rw [run_exec, runAt_bind_ok (runAt_observe_logged hp ho hmark), WriteM.run_map,
    Step.run_performAll_append, Step.run_performAll_events]
  exact h (o.logged _) ho

theorem performs_startAll (hls : ∀ l ∈ ls, l.Records) (g : Glance) (a : α) :
    Performs ls (liftM (liftM (Output.startAll g) : StateT α WriteM Unit)) a
      ((Layer.block ls .start g).map .event) := by
  intro o ho
  have hrun : (Output.startAll g).run o = ((), o.logged (Layer.block ls .start g)) := by
    show (o.layers.forM (Output.startLayer g)).run o = _
    rw [ho, Layer.forM_startLayer hls]
  rw [WriteM.run_map, Step.run_performAll_events]
  show ((Except.ok ((Output.startAll g).run o).1, a), ((Output.startAll g).run o).2) = _
  rw [hrun]

/-- The fields of an object come between what the layers log of its model. -/
theorem performs_object (hls : ∀ l ∈ ls, l.Records) (key : Option String)
    (hmark : mark (glance a).onlyChanged a = a) {fields : Writing α Unit} {pieces : List Piece}
    (h : Performs ls fields a (Piece.stepsAll ls pieces)) :
    Performs ls (object key .model glance mark fields) a
      ((Piece.object key (glance a) pieces).steps ls) := by
  rw [object, Piece.steps]
  refine performs_observe (.inl rfl) hmark ?_
  refine (performs_call _ a).bind ((performs_startAll hls _ a).bind (h.bind ?_))
  refine (performs_call _ a).bind ?_
  have hafter : Performs ls (discard (observe .after glance mark)) a
      ((Layer.block ls .after (glance a)).map .event ++ []) :=
    performs_observe (f := fun _ => pure ()) (.inr rfl) hmark (performs_pure a)
  rwa [List.append_nil] at hafter

end Object

end Writing

/-! ### Models within models -/

namespace Outgoing

theorem performs_ofUnmarked (a : α) {w : Option String → Writing Unit Unit} {key : Option String}
    {ss : List Step} (h : Writing.Performs ls (w key) () ss) :
    WriteM.Performs ls ((ofUnmarked a w).write key) (·, a) ss :=
  WriteM.Performs.andThen h fun _ => rfl

/-- The elements come back as they were, however far the writing has come. -/
theorem performs_writeEach (piece : Outgoing α → Piece) {os : List (Outgoing α)}
    (h : ∀ o ∈ os, WriteM.Performs ls (o.write none) (·, o.model) ((piece o).steps ls)) :
    WriteM.Performs ls (writeEach os) (·, os.map (·.model)) (Piece.stepsAll ls (os.map piece)) := by
  induction os with
  | nil => exact fun _ _ => rfl
  | cons o os ih =>
      obtain ⟨ho, hos⟩ := List.forall_mem_cons.mp h
      exact ho.bind ((ih hos).andThen fun _ => rfl) fun _ => rfl

theorem performs_writeList (piece : Outgoing α → Piece) {os : List (Outgoing α)}
    (h : ∀ o ∈ os, WriteM.Performs ls (o.write none) (·, o.model) ((piece o).steps ls))
    (key : Option String) :
    WriteM.Performs ls (writeList key os) (·, os.map (·.model))
      (Piece.stepsAll ls (.script [.ok (.startCollection key)] ::
        (os.map piece ++ [.script [.ok .endCollection]]))) := by
  rw [Piece.stepsAll, Piece.stepsAll_append, Piece.stepsAll_singleton]
  refine (WriteM.performs_call _).bind ?_ fun _ => rfl
  refine (performs_writeEach piece h).bind ?_ fun _ => rfl
  exact (WriteM.performs_call _).andThen fun _ => rfl

end Outgoing

/-! ### Whole payloads -/

namespace Serializer

variable {s : Serializer} {r : Encoders} {os : List Observer} {contentType key : String}

theorem output_observed (hs : s.encoders = r.observed os)
    (hr : r.find contentType = .ok (key, .json)) :
    s.output contentType = .ok ⟨.json {}, os.reverse.map .observer, []⟩ := by
  have hf := Encoders.find_observed hr os
  rw [← hs] at hf
  exact output_of_find hf

variable (hs : s.encoders = r.observed os) (hr : r.find contentType = .ok (key, .json))
  {a : α} {payloadType? : α → Option String}

include hs hr

/-- A payload is made by the steps that its model is written in. -/
theorem send_eq_of_performs {act : WriteM (Result Unit × α)} {ss : List Step}
    (h : WriteM.Performs os.reverse act (·, a) ss) :
    s.send contentType a payloadType? act =
      s.send contentType a payloadType? (Step.leaving a ss) := by
  have hrun := h ⟨.json {}, os.reverse.map .observer, []⟩ rfl
  rw [send, send, output_observed hs hr]
  simp only [hrun, Step.leaving]

theorem log_send_leaving {ss : List Step} {p : Payload}
    (h : (s.send contentType a payloadType? (Step.leaving a ss)).result = .ok p) :
    (s.send contentType a payloadType? (Step.leaving a ss)).log = Step.events ss := by
  have ho := output_observed hs hr
  obtain ⟨b, o, hrun⟩ := exists_of_send_ok ho h
  have hsteps : (Step.performAll ss).run ⟨.json {}, os.reverse.map .observer, []⟩ = (.ok (), o) :=
    congrArg (fun q : (Result Unit × α) × Output => (q.1.1, q.2)) hrun
  have hlog := Step.log_performAll hsteps
  have hfinish : (Output.finish.run o).2.log = o.log := rfl
  rw [send, ho]
  simp only [hrun]
  rcases hf : Output.finish.run o with ⟨r, o'⟩
  rw [hf] at hfinish
  cases r with
  | ok _ | error _ => exact hfinish.trans hlog

end Serializer

end Marshal
