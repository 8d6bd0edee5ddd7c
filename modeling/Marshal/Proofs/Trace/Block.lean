import Marshal.Proofs.Receiving

/-!
Layers that only record. Each of them logs one event where it has a hook for what happens to a
model, and apart from the log everything is as without it.
-/

namespace Marshal

namespace Observer

def sees (o : Observer) : Phase → Bool
  | .before => o.before
  | .after => o.after
  | .start => o.start
  | .startRefused => false

/-- A layer whose hooks do nothing but record. -/
structure Records (o : Observer) : Prop where
  untagged : o.before = true ∨ o.after = true → o.tag = false
  silent : o.start = true → o.writes = false

end Observer

namespace Layer

/-- What layers log at one point: an event from each that has a hook for it, one after the other. -/
def block (ls : List Observer) (phase : Phase) (g : Glance) : Log :=
  (ls.filter (·.sees phase)).map fun l => ⟨l.label, phase, g⟩

theorem block_cons (l : Observer) (ls : List Observer) (phase : Phase) (g : Glance) :
    block (l :: ls) phase g =
      (if l.sees phase then [⟨l.label, phase, g⟩] else []) ++ block ls phase g := by
  cases h : l.sees phase <;> simp [block, h]

/-- The phases in which a layer sees a model from outside its object. -/
def Outer (phase : Phase) : Prop :=
  phase = .before ∨ phase = .after

theorem Outer.sees_eq {phase : Phase} (h : Outer phase) (l : Observer) :
    (if phase = .before then l.before else l.after) = l.sees phase := by
  rcases h with rfl | rfl <;> rfl

theorem Outer.before_or_after {phase : Phase} (h : Outer phase) {l : Observer}
    (hl : l.sees phase = true) : l.before = true ∨ l.after = true := by
  rcases h with rfl | rfl
  · exact .inl hl
  · exact .inr hl

end Layer

/-! ### On writing -/

def Output.logged (o : Output) (l : Log) : Output :=
  { o with log := o.log ++ l }

@[simp] theorem Output.logged_nil (o : Output) : o.logged [] = o := by
  simp [logged]

@[simp] theorem Output.logged_logged (o : Output) (l m : Log) :
    (o.logged l).logged m = o.logged (l ++ m) := by
  simp [logged]

namespace Layer

theorem foldlM_observe {phase : Phase} (hp : Outer phase) (ls : List Observer) (g : Glance)
    (o : Output) :
    ((ls.map observer).foldlM (Output.observe phase) g).run o =
      (g, o.logged (block ls phase g)) := by
  induction ls generalizing o with
  | nil => exact congrArg (g, ·) o.logged_nil.symm
  | cons l ls ih =>
      have hl : (Output.observe phase g (.observer l)).run o =
          (g, o.logged (if l.sees phase then [⟨l.label, phase, g⟩] else [])) := by
        rw [Output.observe, hp.sees_eq l]
        cases l.sees phase with
        | true => rfl
        | false => exact congrArg (g, ·) o.logged_nil.symm
      rw [List.map_cons, List.foldlM_cons, WriteM.run_bind_of hl, ih, block_cons,
        Output.logged_logged]

theorem forM_startLayer {ls : List Observer} (h : ∀ l ∈ ls, l.Records) (g : Glance) (o : Output) :
    ((ls.map observer).forM (Output.startLayer g)).run o = ((), o.logged (block ls .start g)) := by
  induction ls generalizing o with
  | nil => exact congrArg ((), ·) o.logged_nil.symm
  | cons l ls ih =>
      obtain ⟨hl, hls⟩ := List.forall_mem_cons.mp h
      have hrun : (Output.startLayer g (.observer l)).run o =
          ((), o.logged (if l.sees .start then [⟨l.label, .start, g⟩] else [])) := by
        rw [Output.startLayer, Output.startValue, Observer.sees]
        cases hstart : l.start with
        | true =>
            rw [hl.silent hstart]
            rfl
        | false => exact congrArg ((), ·) o.logged_nil.symm
      have hcons : ((l :: ls).map observer).forM (Output.startLayer g) =
          Output.startLayer g (.observer l) >>= fun _ =>
            (ls.map observer).forM (Output.startLayer g) := rfl
      rw [hcons, WriteM.run_bind_of hrun, ih hls, block_cons, Output.logged_logged]

/-! ### On reading -/

theorem foldlM_observe_read {α : Type} [Parsable α] {phase : Phase} (hp : Outer phase)
    {ls : List Observer} (h : ∀ l ∈ ls, l.Records) (a : α) (log : Log) :
    (ExceptT.run ((ls.map observer).foldlM (Parsable.observe phase) a)).run log =
      (.ok a, log ++ block ls phase (Parsable.glance a)) := by
  induction ls generalizing log with
  | nil => exact congrArg (Except.ok a, ·) (List.append_nil log).symm
  | cons l ls ih =>
      obtain ⟨hl, hls⟩ := List.forall_mem_cons.mp h
      have hrun : (ExceptT.run (Parsable.observe phase a (.observer l))).run log =
          (.ok a, log ++ if l.sees phase then [⟨l.label, phase, Parsable.glance a⟩] else []) := by
        rw [Parsable.observe, hp.sees_eq l]
        cases hsees : l.sees phase with
        | true =>
            rw [hl.untagged (hp.before_or_after hsees)]
            rfl
        | false => exact congrArg (Except.ok a, ·) (List.append_nil log).symm
      rw [List.map_cons, List.foldlM_cons, ExceptT.run_bind, StateT.run_bind]
      show (match (ExceptT.run (Parsable.observe phase a (.observer l))).run log with
        | (r, log) => _) = _
      rw [hrun, block_cons, ← List.append_assoc]
      exact ih hls _

end Layer

/-! ### Putting layers on -/

theorem Registry.find_foldl_mapAll {F ι : Type} (f : ι → F → F) (is : List ι) (r : Registry F)
    (contentType : String) :
    (is.foldl (fun r i => r.mapAll (f i)) r).find contentType =
      (r.find contentType).map fun found => (found.1, is.foldl (fun a i => f i a) found.2) := by
  induction is generalizing r with
  | nil => cases h : r.find contentType <;> simp [Except.map, h]
  | cons i is ih =>
      rw [List.foldl_cons, ih, find_mapAll]
      cases r.find contentType <;> simp [Except.map]

/-- The encoders with layers around all of them, the last one outermost. -/
def Encoders.observed (r : Encoders) (os : List Observer) : Encoders :=
  os.foldl (fun r o => r.mapAll (Encoder.wrap (.observer o))) r

def Decoders.observed (r : Decoders) (os : List Observer) : Decoders :=
  os.foldl (fun r o => r.mapAll (Decoder.wrap (.observer o))) r

theorem Encoder.foldl_wrap (os : List Observer) (e : Encoder) :
    os.foldl (fun e o => e.wrap (.observer o)) e =
      { e with layers := os.reverse.map .observer ++ e.layers } := by
  induction os generalizing e with
  | nil => rfl
  | cons o os ih => rw [List.foldl_cons, ih, wrap]; simp

theorem Decoder.foldl_wrap (os : List Observer) (d : Decoder) :
    os.foldl (fun d o => d.wrap (.observer o)) d =
      { d with layers := os.reverse.map .observer ++ d.layers } := by
  induction os generalizing d with
  | nil => rfl
  | cons o os ih => rw [List.foldl_cons, ih, wrap]; simp

theorem Encoders.find_observed {r : Encoders} {contentType key : String}
    (h : r.find contentType = .ok (key, .json)) (os : List Observer) :
    (r.observed os).find contentType =
      .ok (key, { Encoder.json with layers := os.reverse.map .observer }) := by
  rw [observed, Registry.find_foldl_mapAll, h]
  simp [Except.map, Encoder.foldl_wrap, Encoder.json]

theorem Decoders.find_observed {r : Decoders} {contentType key : String} {maxDepth : Nat}
    (h : r.find contentType = .ok (key, .json maxDepth)) (os : List Observer) :
    (r.observed os).find contentType =
      .ok (key, { Decoder.json maxDepth with layers := os.reverse.map .observer }) := by
  rw [observed, Registry.find_foldl_mapAll, h]
  simp [Except.map, Decoder.foldl_wrap, Decoder.json]

end Marshal
