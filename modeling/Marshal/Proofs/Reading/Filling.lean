import Marshal.Parsable

/-!
Filling in a model. A step ends with a model and a log, whether it fails or not. Where only the
model of a step that ends well counts, steps are readings, and a run of steps is a fold over its
members.
-/

namespace Marshal

/-- How filling in ends: with or without an error, and what the model and the log are then. -/
structure Ending (α : Type) where
  result : Result Unit
  model : α
  log : Log

def Ending.andThen {α : Type} : Ending α → (α → Log → Ending α) → Ending α
  | ⟨.ok _, a, log⟩, f => f a log
  | ⟨.error e, a, log⟩, _ => ⟨.error e, a, log⟩

theorem ReadM.ext {α : Type} {r s : ReadM α}
    (h : ∀ log, (ExceptT.run r).run log = (ExceptT.run s).run log) : r = s :=
  funext h

namespace FillM

variable {α β : Type}

def ending (x : FillM α Unit) (a : α) (log : Log) : Ending α :=
  let ((result, a'), log') := ((ExceptT.run x).run a).run log
  ⟨result, a', log'⟩

theorem run_on (x : FillM α Unit) (a : α) (log : Log) :
    (ExceptT.run (x.on a)).run log =
      ((x.ending a log).result.map fun _ => (x.ending a log).model, (x.ending a log).log) := rfl

theorem ending_bind (x y : FillM α Unit) (a : α) (log : Log) :
    ending (x >>= fun _ => y) a log = (x.ending a log).andThen y.ending := by
  rw [ending, ExceptT.run_bind, StateT.run_bind, StateT.run_bind, ending]
  obtain ⟨⟨result, a'⟩, log'⟩ := ((ExceptT.run x).run a).run log
  cases result <;> rfl

theorem run_zoom (p : Projection α β) (x : FillM β Unit) (a : α) :
    (ExceptT.run (x.zoom p)).run a =
      match p.get? a with
      | some b => do
        let (result, b') ← (ExceptT.run x).run b
        return (result, p.set b' a)
      | none => return (.ok (), a) := rfl

/-- The component goes through the step, and what comes of it is put back. -/
theorem ending_zoom_of_some {p : Projection α β} {a : α} {b : β} (h : p.get? a = some b)
    (x : FillM β Unit) (log : Log) :
    (x.zoom p).ending a log =
      ⟨(x.ending b log).result, p.set (x.ending b log).model a, (x.ending b log).log⟩ := by
  rw [ending, run_zoom, h]
  rfl

theorem ending_zoom_of_none {p : Projection α β} {a : α} (h : p.get? a = none)
    (x : FillM β Unit) (log : Log) : (x.zoom p).ending a log = ⟨.ok (), a, log⟩ := by
  rw [ending, run_zoom, h]
  rfl

theorem ending_update (f : α → ReadM α) (a : α) (log : Log) :
    (update f).ending a log =
      ⟨((ExceptT.run (f a)).run log).1.map fun _ => (),
        ((ExceptT.run (f a)).run log).1.toOption.getD a, ((ExceptT.run (f a)).run log).2⟩ := by
  rw [ending, update, ExceptT.run_mk]
  simp only [StateT.run, bind, StateT.bind]
  obtain ⟨result, log'⟩ := ExceptT.run (f a) log
  cases result <;> rfl

/-! ### The model alone -/

theorem on_update (f : α → ReadM α) (a : α) : (update f).on a = f a := by
  refine ReadM.ext fun log => ?_
  rw [run_on, ending_update]
  obtain ⟨result, log'⟩ := (ExceptT.run (f a)).run log
  cases result <;> rfl

theorem on_get_bind (f : α → FillM α Unit) (a : α) : on (get >>= f) a = (f a).on a := rfl

theorem on_bind (x y : FillM α Unit) (a : α) : on (x >>= fun _ => y) a = x.on a >>= y.on := by
  refine ReadM.ext fun log => ?_
  rw [run_on, ending_bind, ExceptT.run_bind, StateT.run_bind, run_on]
  obtain ⟨result, a', log'⟩ := x.ending a log
  cases result <;> rfl

theorem on_forM (f : β → FillM α Unit) (bs : List β) (a : α) :
    on (bs.forM f) a = bs.foldlM (fun a b => (f b).on a) a := by
  induction bs generalizing a with
  | nil => rfl
  | cons b bs ih =>
      show on (f b >>= fun _ => bs.forM f) a = _
      rw [on_bind, List.foldlM_cons]
      exact bind_congr ih

theorem on_zoom (p : Projection α β) (x : FillM β Unit) (a : α) :
    (x.zoom p).on a =
      match p.get? a with
      | some b => do return p.set (← x.on b) a
      | none => return a := by
  refine ReadM.ext fun log => ?_
  rw [run_on]
  cases h : p.get? a with
  | none => rw [ending_zoom_of_none h]; rfl
  | some b =>
      rw [ending_zoom_of_some h, ExceptT.run_bind, StateT.run_bind, run_on]
      obtain ⟨result, b', log'⟩ := x.ending b log
      cases result <;> rfl

end FillM

namespace FieldReaders

variable {α β : Type}

theorem on_lift (p : Projection α β) (r : FieldReader β) (n : Node) (a : α) :
    (lift p r n).on a =
      match p.get? a with
      | some b => do return p.set (← (r n).on b) a
      | none => return a :=
  FillM.on_zoom p (r n) a

end FieldReaders

theorem Field.on_reader {α : Type} (f : Field α) (n : Node) (a : α) :
    (f.reader n).on a = do return f.set (← ReadM.ofResult (f.codec.read? n)) a :=
  FillM.on_update _ a

namespace Parsable

variable {α : Type} [Parsable α]

def assign (readers : FieldReaders α) (a : α) (member : String × Node) : ReadM α :=
  match readers.get? member.1 with
  | some r => (r member.2).on a
  | none =>
    match keep? (α := α) with
    | some keep => return keep member.1 member.2.untyped a
    | none => return a

def assignAll (layers : List Layer) (self : Node → ReadM (Option α)) (members : Members Node)
    (a : α) : ReadM α := do
  let a ← layers.foldlM (observe .before) a
  let a ← members.foldlM (assign (fieldReaders self a)) a
  layers.foldlM (observe .after) a

theorem on_fillMember (readers : FieldReaders α) (m : String × Node) (a : α) :
    (fillMember readers m).on a = assign readers a m := by
  rw [fillMember, assign]
  cases readers.get? m.1 with
  | some r => rfl
  | none => cases keep? (α := α) <;> rfl

theorem on_fill (layers : List Layer) (self : Node → ReadM (Option α)) (members : Members Node)
    (a : α) : (fill layers self members).on a = assignAll layers self members a := by
  have hlayers (phase : Phase) (a : α) :
      FillM.on (layers.forM fun l => .update (observe phase · l)) a =
        layers.foldlM (observe phase) a := by
    simp only [FillM.on_forM, FillM.on_update]
  rw [fill, FillM.on_bind, hlayers]
  refine bind_congr fun a => ?_
  rw [FillM.on_get_bind, FillM.on_bind, FillM.on_forM]
  simp only [on_fillMember]
  exact bind_congr (hlayers .after)

theorem readAt_succ (c : Reading.Context α) (depth : Nat) (factory : Factory α) (n : Node) :
    readAt c (depth + 1) factory n = do
      match ← ReadM.ofResult n.members? with
      | none => return none
      | some members =>
        let a ← ReadM.ofResult (c.resolve n factory n)
        return some (← assignAll c.layers (readAt c depth create) members a) := by
  rw [readAt]
  refine bind_congr fun found => ?_
  cases found with
  | none => rfl
  | some members => simp only [on_fill]

end Parsable

end Marshal
