import Marshal.Proofs.Reading.Run

/-!
How reading ends. `Succeeds` and `Fails` say so whatever has been logged before; `Ends` says also
which error is due, and `Outcome` where.
-/

namespace Marshal

namespace ReadM

variable {α β : Type}

def Succeeds (r : ReadM α) : Prop :=
  ∀ log, ∃ a log', (ExceptT.run r).run log = (.ok a, log')

def Fails (r : ReadM α) (P : Error → Prop) : Prop :=
  ∀ log, ∃ e log', (ExceptT.run r).run log = (.error e, log') ∧ P e

theorem succeeds_pure (a : α) : Succeeds (pure a) := fun log => ⟨a, log, rfl⟩

theorem succeeds_ofResult {r : Result α} {a : α} (h : r = .ok a) : (ofResult r).Succeeds := by
  rw [h]
  exact succeeds_pure a

theorem fails_ofResult {P : Error → Prop} {r : Result α} {e : Error} (h : r = .error e) (he : P e) :
    (ofResult r).Fails P := by
  rw [h]
  exact fun log => ⟨e, log, rfl, he⟩

theorem succeeds_modify (f : Log → Log) : (modify f : ReadM Unit).Succeeds :=
  fun log => ⟨(), f log, rfl⟩

theorem Succeeds.bind {r : ReadM α} {f : α → ReadM β} (hr : r.Succeeds)
    (hf : ∀ a, (f a).Succeeds) : (r >>= f).Succeeds := by
  intro log
  obtain ⟨a, log₁, ha⟩ := hr log
  obtain ⟨b, log₂, hb⟩ := hf a log₁
  refine ⟨b, log₂, ?_⟩
  rw [ExceptT.run_bind, StateT.run_bind, ha]
  exact hb

/-- What comes after a failure is not run. -/
theorem Fails.bind {P : Error → Prop} {r : ReadM α} (hr : r.Fails P) (f : α → ReadM β) :
    (r >>= f).Fails P := by
  intro log
  obtain ⟨e, log', he, hP⟩ := hr log
  refine ⟨e, log', ?_, hP⟩
  rw [ExceptT.run_bind, StateT.run_bind, he]
  rfl

theorem Succeeds.bind_fails {P : Error → Prop} {r : ReadM α} {f : α → ReadM β} (hr : r.Succeeds)
    (hf : ∀ a, (f a).Fails P) : (r >>= f).Fails P := by
  intro log
  obtain ⟨a, log₁, ha⟩ := hr log
  obtain ⟨e, log₂, he, hP⟩ := hf a log₁
  refine ⟨e, log₂, ?_, hP⟩
  rw [ExceptT.run_bind, StateT.run_bind, ha]
  exact he

theorem Fails.mono {P Q : Error → Prop} {r : ReadM α} (h : r.Fails P) (hPQ : ∀ e, P e → Q e) :
    r.Fails Q := by
  intro log
  obtain ⟨e, log', he, hP⟩ := h log
  exact ⟨e, log', he, hPQ e hP⟩

/-! ### The error that is due -/

/-- Reading ends well if no error is due, and else with one of those that are. -/
def Ends (r : ReadM α) : Option (Error → Prop) → Prop
  | none => r.Succeeds
  | some P => r.Fails P

variable {φ : Type} {P : φ → Error → Prop}

theorem Ends.bind {r : ReadM α} {f : α → ReadM β} {fault fault' : Option φ}
    (hr : r.Ends (fault.map P)) (hf : ∀ a, (f a).Ends (fault'.map P)) :
    (r >>= f).Ends ((fault.or fault').map P) := by
  cases fault with
  | some x => exact Fails.bind hr f
  | none =>
      cases fault' with
      | none => exact Succeeds.bind hr hf
      | some x => exact Succeeds.bind_fails hr hf

theorem Ends.bind_pure {r : ReadM α} {fault : Option φ} (hr : r.Ends (fault.map P)) (f : α → β) :
    (r >>= fun a => pure (f a)).Ends (fault.map P) := by
  have h : (r >>= fun a => pure (f a)).Ends ((fault.or none).map P) :=
    hr.bind fun a => succeeds_pure (f a)
  rwa [Option.or_none] at h

theorem findSome?_cons_eq_or {γ : Type} (f : α → Option γ) (a : α) (as : List α) :
    (a :: as).findSome? f = (f a).or (as.findSome? f) := by
  rw [List.findSome?_cons]
  cases f a <;> rfl

/-- The fault of a sequence is the first of its parts. -/
theorem ends_mapM {f : α → ReadM β} {fault : α → Option φ} {as : List α}
    (h : ∀ a ∈ as, (f a).Ends ((fault a).map P)) :
    (as.mapM f).Ends ((as.findSome? fault).map P) := by
  induction as with
  | nil => exact succeeds_pure []
  | cons a as ih =>
      obtain ⟨ha, has⟩ := List.forall_mem_cons.mp h
      rw [List.mapM_cons, findSome?_cons_eq_or]
      exact ha.bind fun b => (ih has).bind_pure (b :: ·)

theorem ends_foldlM {f : α → β → ReadM α} {fault : β → Option φ} {bs : List β}
    (h : ∀ b ∈ bs, ∀ a, (f a b).Ends ((fault b).map P)) (a : α) :
    (bs.foldlM f a).Ends ((bs.findSome? fault).map P) := by
  induction bs generalizing a with
  | nil => exact succeeds_pure a
  | cons b bs ih =>
      obtain ⟨hb, hbs⟩ := List.forall_mem_cons.mp h
      rw [List.foldlM_cons, findSome?_cons_eq_or]
      exact (hb a).bind fun a' => ih hbs a'

/-! ### The place of a failure -/

/-- Reading ends well if there is no fault, and else with a parse error there. -/
def Outcome (r : ReadM α) : Option String → Prop
  | none => r.Succeeds
  | some path => r.Fails fun e => ∃ cause, e = .parse path cause

theorem Ends.outcome {r : ReadM α} {fault : Option φ} (h : r.Ends (fault.map P))
    {path : φ → String} (hP : ∀ x e, P x e → ∃ cause, e = .parse (path x) cause) :
    r.Outcome (fault.map path) := by
  cases fault with
  | none => exact h
  | some x => exact Fails.mono h (hP x)

end ReadM

end Marshal
