import Mathlib.Data.List.Forall2
import Marshal.FieldReaders

/-!
What may come of reading. `Ensures` says that reading does not end well but with a value of some
property; it says nothing of errors. `Returns` says that reading ends well and logs nothing.
-/

namespace Marshal

namespace ReadM

variable {α β : Type}

@[simp] theorem ofResult_ok (a : α) : ofResult (.ok a) = pure a := rfl

theorem ofResult_bind (r : Result α) (f : α → Result β) :
    ofResult (r >>= f) = ofResult r >>= fun a => ofResult (f a) := by
  cases r <;> rfl

theorem ofResult_mapM (f : α → Result β) (as : List α) :
    ofResult (as.mapM f) = as.mapM fun a => ofResult (f a) := by
  induction as with
  | nil => rfl
  | cons a as ih =>
      rw [List.mapM_cons, List.mapM_cons, ofResult_bind]
      congr 1
      funext b
      rw [ofResult_bind, ih]
      rfl

def Ensures (r : ReadM α) (P : α → Prop) : Prop :=
  ∀ log a log', (ExceptT.run r).run log = (.ok a, log') → P a

theorem Ensures.mono {r : ReadM α} {P Q : α → Prop} (h : r.Ensures P) (hPQ : ∀ a, P a → Q a) :
    r.Ensures Q := fun log a log' hrun => hPQ a (h log a log' hrun)

theorem ensures_trivial (r : ReadM α) : r.Ensures fun _ => True :=
  fun _ _ _ _ => trivial

theorem ensures_pure {P : α → Prop} {a : α} (h : P a) : Ensures (pure a) P := by
  intro log b log' hrun
  cases hrun
  exact h

theorem ensures_ofResult {P : α → Prop} {r : Result α} (h : ∀ a, r = .ok a → P a) :
    (ofResult r).Ensures P := by
  intro log a log' hrun
  cases hrun
  exact h a rfl

/-- A sequence that ends well goes through its first part. -/
theorem exists_of_run_bind {r : ReadM α} {f : α → ReadM β} {b : β} {log log' : Log}
    (h : (ExceptT.run (r >>= f)).run log = (.ok b, log')) :
    ∃ a log₁, (ExceptT.run r).run log = (.ok a, log₁) ∧
      (ExceptT.run (f a)).run log₁ = (.ok b, log') := by
  rw [ExceptT.run_bind, StateT.run_bind] at h
  obtain ⟨result, log₁, hr⟩ : ∃ result log₁, (ExceptT.run r).run log = (result, log₁) :=
    ⟨_, _, rfl⟩
  rw [hr] at h
  cases result with
  | ok a => exact ⟨a, log₁, hr, h⟩
  | error e => cases h

theorem Ensures.bind {r : ReadM α} {f : α → ReadM β} {Q : α → Prop} {P : β → Prop}
    (hr : r.Ensures Q) (hf : ∀ a, Q a → (f a).Ensures P) : (r >>= f).Ensures P := by
  intro log b log' hrun
  obtain ⟨a, log₁, ha, hb⟩ := exists_of_run_bind hrun
  exact hf a (hr log a log₁ ha) log₁ b log' hb

theorem ensures_mapM {f : α → ReadM β} {R : α → β → Prop} {as : List α}
    (h : ∀ a ∈ as, (f a).Ensures (R a)) : (as.mapM f).Ensures (List.Forall₂ R as) := by
  induction as with
  | nil => exact ensures_pure .nil
  | cons a as ih =>
      obtain ⟨ha, has⟩ := List.forall_mem_cons.mp h
      rw [List.mapM_cons]
      exact ha.bind fun b hb => (ih has).bind fun bs hbs => ensures_pure (.cons hb hbs)

/-- An invariant of what has been read so far. -/
theorem ensures_foldlM {f : α → β → ReadM α} {I : List β → α → Prop} {bs : List β}
    (step : ∀ done b rest a, done ++ b :: rest = bs → I done a →
      (f a b).Ensures (I (done ++ [b]))) {a : α} (h : I [] a) :
    (bs.foldlM f a).Ensures (I bs) := by
  have hrest : ∀ rest done, done ++ rest = bs → ∀ a, I done a →
      (rest.foldlM f a).Ensures (I bs) := by
    intro rest
    induction rest with
    | nil =>
        intro done hdone a ha
        rw [List.append_nil] at hdone
        exact ensures_pure (hdone ▸ ha)
    | cons b rest ih =>
        intro done hdone a ha
        rw [List.foldlM_cons]
        exact (step done b rest a hdone ha).bind fun a' ha' => ih (done ++ [b]) (by simpa) a' ha'
  exact hrest bs [] rfl a h

/-- A fold that ends well has done so at every element. -/
theorem ensures_foldlM_each {f : α → β → ReadM α} {Q : β → Prop} {bs : List β}
    (h : ∀ b ∈ bs, ∀ a, (f a b).Ensures fun _ => Q b) (a : α) :
    (bs.foldlM f a).Ensures fun _ => ∀ b ∈ bs, Q b := by
  refine ensures_foldlM (I := fun done _ => ∀ b ∈ done, Q b)
    (fun done b rest a hwhole hdone => ?_) (List.forall_mem_nil _)
  have hb : b ∈ bs := by simp [← hwhole]
  refine (h b hb a).mono fun _ hQ => ?_
  exact List.forall_mem_append.mpr ⟨hdone, List.forall_mem_singleton.mpr hQ⟩

/-- What reading ends well with has the property. -/
theorem Ensures.of_exec {r : ReadM α} {P : α → Prop} (h : r.Ensures P) {a : α} {log : Log}
    (hr : r.exec = (.ok a, log)) : P a :=
  h [] a log hr

/-! ### Reading that ends well -/

def Returns (r : ReadM α) : Prop :=
  ∃ a, r = pure a

theorem returns_pure (a : α) : Returns (pure a) :=
  ⟨a, rfl⟩

theorem returns_ofResult {r : Result α} {a : α} (h : r = .ok a) : (ofResult r).Returns :=
  ⟨a, by rw [h, ofResult_ok]⟩

theorem Returns.bind {r : ReadM α} {f : α → ReadM β} (hr : r.Returns) (hf : ∀ a, (f a).Returns) :
    (r >>= f).Returns := by
  obtain ⟨a, rfl⟩ := hr
  rw [pure_bind]
  exact hf a

theorem returns_mapM {f : α → ReadM β} {as : List α} (h : ∀ a ∈ as, (f a).Returns) :
    (as.mapM f).Returns := by
  induction as with
  | nil => exact returns_pure []
  | cons a as ih =>
      obtain ⟨ha, has⟩ := List.forall_mem_cons.mp h
      rw [List.mapM_cons]
      exact ha.bind fun b => (ih has).bind fun bs => returns_pure _

theorem returns_foldlM {f : α → β → ReadM α} {bs : List β} (h : ∀ b ∈ bs, ∀ a, (f a b).Returns)
    (a : α) : (bs.foldlM f a).Returns := by
  induction bs generalizing a with
  | nil => exact returns_pure a
  | cons b bs ih =>
      obtain ⟨hb, hbs⟩ := List.forall_mem_cons.mp h
      rw [List.foldlM_cons]
      exact (hb a).bind fun a' => ih hbs a'

theorem Returns.exists_exec {r : ReadM α} {P : α → Prop} (h : r.Returns) (hP : r.Ensures P) :
    ∃ a, r.exec = (.ok a, []) ∧ P a := by
  obtain ⟨a, rfl⟩ := h
  exact ⟨a, rfl, hP.of_exec rfl⟩

end ReadM

end Marshal
