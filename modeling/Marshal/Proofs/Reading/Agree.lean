import Marshal.Proofs.Reading.Run

/-!
Two readings that agree: both end well, with related values, or both fail. What has been logged
before makes no difference. Steps that agree in either order agree in any order.
-/

namespace Marshal

/-- Two values that are related, or two errors. -/
inductive Result.Agree {α β : Type} (R : α → β → Prop) : Result α → Result β → Prop
  | ok {a : α} {b : β} (h : R a b) : Agree R (.ok a) (.ok b)
  | error (e e' : Error) : Agree R (.error e) (.error e')

theorem Result.Agree.mono {α β : Type} {R S : α → β → Prop} {r : Result α} {s : Result β}
    (h : Result.Agree R r s) (hRS : ∀ a b, R a b → S a b) : Result.Agree S r s := by
  cases h with
  | ok hab => exact .ok (hRS _ _ hab)
  | error e e' => exact .error e e'

theorem Result.agree_rfl {α : Type} (r : Result α) : Result.Agree Eq r r := by
  cases r with
  | ok a => exact .ok rfl
  | error e => exact .error e e

namespace ReadM

variable {α β γ δ : Type} {R : α → β → Prop} {S : γ → δ → Prop}

def result (r : ReadM α) (log : Log) : Result α :=
  Prod.fst (StateT.run (ExceptT.run r) log : Result α × Log)

theorem result_bind_ok {r : ReadM α} {log log' : Log} {a : α}
    (h : (ExceptT.run r).run log = (.ok a, log')) (f : α → ReadM γ) :
    (r >>= f).result log = (f a).result log' := by
  rw [result, ExceptT.run_bind, StateT.run_bind, h]
  rfl

theorem result_bind_error {r : ReadM α} {log log' : Log} {e : Error}
    (h : (ExceptT.run r).run log = (.error e, log')) (f : α → ReadM γ) :
    (r >>= f).result log = .error e := by
  rw [result, ExceptT.run_bind, StateT.run_bind, h]
  rfl

def Agree (R : α → β → Prop) (r : ReadM α) (s : ReadM β) : Prop :=
  ∀ log log', Result.Agree R (r.result log) (s.result log')

theorem agree_pure {a : α} {b : β} (h : R a b) : Agree R (pure a) (pure b) :=
  fun _ _ => .ok h

theorem agree_ofResult {r : Result α} {s : Result β} (h : Result.Agree R r s) :
    Agree R (ofResult r) (ofResult s) :=
  fun _ _ => h

theorem Agree.mono {r : ReadM α} {s : ReadM β} {R' : α → β → Prop} (h : Agree R r s)
    (hR : ∀ a b, R a b → R' a b) : Agree R' r s :=
  fun log log' => (h log log').mono hR

theorem Agree.bind {r : ReadM α} {s : ReadM β} {f : α → ReadM γ} {g : β → ReadM δ}
    (h : Agree R r s) (hfg : ∀ a b, R a b → Agree S (f a) (g b)) :
    Agree S (r >>= f) (s >>= g) := by
  intro log log'
  obtain ⟨x, log₁, hx⟩ : ∃ x log₁, (ExceptT.run r).run log = (x, log₁) := ⟨_, _, rfl⟩
  obtain ⟨y, log₂, hy⟩ : ∃ y log₂, (ExceptT.run s).run log' = (y, log₂) := ⟨_, _, rfl⟩
  have hrs : Result.Agree R x y := by simpa only [result, hx, hy] using h log log'
  cases hrs with
  | ok hab =>
      rw [result_bind_ok hx, result_bind_ok hy]
      exact hfg _ _ hab log₁ log₂
  | error e e' =>
      rw [result_bind_error hx, result_bind_error hy]
      exact .error e e'

theorem Agree.bind_pure {r : ReadM α} {s : ReadM β} {f : α → γ} {g : β → δ} (h : Agree R r s)
    (hfg : ∀ a b, R a b → S (f a) (g b)) :
    Agree S (r >>= fun a => pure (f a)) (s >>= fun b => pure (g b)) :=
  h.bind fun a b hab => agree_pure (hfg a b hab)

theorem Agree.trans {r : ReadM α} {s : ReadM β} {t : ReadM γ} {Q : β → γ → Prop}
    {T : α → γ → Prop} (h : Agree R r s) (h' : Agree Q s t) (hT : ∀ a b c, R a b → Q b c → T a c) :
    Agree T r t := by
  intro log log'
  have hrs := h log []
  have hst := h' [] log'
  generalize r.result log = x, s.result [] = y, t.result log' = z at hrs hst ⊢
  cases hrs with
  | ok hab =>
      cases hst with
      | ok hbc => exact .ok (hT _ _ _ hab hbc)
  | error e e' =>
      cases hst with
      | error _ e'' => exact .error e e''

/-- What is read does not depend on what has been logged. -/
def Steady (r : ReadM α) : Prop :=
  Agree Eq r r

theorem steady_pure (a : α) : Steady (pure a) :=
  agree_pure rfl

theorem steady_ofResult (r : Result α) : Steady (ofResult r) :=
  agree_ofResult r.agree_rfl

theorem steady_modify (f : Log → Log) : Steady (modify f : ReadM Unit) :=
  fun _ _ => .ok rfl

theorem Steady.bind {r : ReadM α} {f : α → ReadM γ} (hr : Steady r) (hf : ∀ a, Steady (f a)) :
    Steady (r >>= f) :=
  Agree.bind hr fun a _ hab => hab ▸ hf a

/-- Both have to end well, so it does not matter which is read first. -/
theorem agree_swap {r : ReadM α} {s : ReadM β} (hr : Steady r) (hs : Steady s) {f g : α → β → γ}
    {E : γ → γ → Prop} (h : ∀ a b, E (f a b) (g a b)) :
    Agree E (r >>= fun a => s >>= fun b => pure (f a b))
      (s >>= fun b => r >>= fun a => pure (g a b)) := by
  intro log log'
  obtain ⟨x, log₁, hx⟩ : ∃ x log₁, (ExceptT.run r).run log = (x, log₁) := ⟨_, _, rfl⟩
  obtain ⟨y, log₂, hy⟩ : ∃ y log₂, (ExceptT.run s).run log' = (y, log₂) := ⟨_, _, rfl⟩
  -- What is read second starts from another log on each side.
  obtain ⟨y', log₃, hy'⟩ : ∃ y' log₃, (ExceptT.run s).run log₁ = (y', log₃) := ⟨_, _, rfl⟩
  obtain ⟨x', log₄, hx'⟩ : ∃ x' log₄, (ExceptT.run r).run log₂ = (x', log₄) := ⟨_, _, rfl⟩
  have hr' : Result.Agree Eq x x' := by simpa only [result, hx, hx'] using hr log log₂
  have hs' : Result.Agree Eq y y' := by simpa only [result, hy, hy'] using hs log' log₁
  cases hr' with
  | error e e' =>
      rw [result_bind_error hx]
      cases hs' with
      | error e₁ e₂ =>
          rw [result_bind_error hy]
          exact .error ..
      | ok hb =>
          rw [result_bind_ok hy, result_bind_error hx']
          exact .error ..
  | ok ha =>
      subst ha
      rw [result_bind_ok hx]
      cases hs' with
      | error e₁ e₂ =>
          rw [result_bind_error hy, result_bind_error hy']
          exact .error ..
      | ok hb =>
          subst hb
          rw [result_bind_ok hy, result_bind_ok hy', result_bind_ok hx']
          exact .ok (h _ _)

/-! ### Lists -/

theorem agree_mapM {f : α → ReadM γ} {g : β → ReadM δ} {as : List α} {bs : List β}
    (h : List.Forall₂ (fun a b => Agree S (f a) (g b)) as bs) :
    Agree (List.Forall₂ S) (as.mapM f) (bs.mapM g) := by
  induction h with
  | nil => exact agree_pure .nil
  | cons hab _ ih =>
      rw [List.mapM_cons, List.mapM_cons]
      exact hab.bind fun c d hcd => ih.bind_pure fun cs ds hcds => .cons hcd hcds

theorem agree_foldlM {f : α → γ → ReadM α} {g : β → δ → ReadM β} {cs : List γ} {ds : List δ}
    (h : List.Forall₂ (fun c d => ∀ a b, R a b → Agree R (f a c) (g b d)) cs ds) {a : α} {b : β}
    (hab : R a b) : Agree R (cs.foldlM f a) (ds.foldlM g b) := by
  induction h generalizing a b with
  | nil => exact agree_pure hab
  | cons hcd _ ih =>
      rw [List.foldlM_cons, List.foldlM_cons]
      exact (hcd a b hab).bind fun a' b' hab' => ih hab'

/-- Steps may be taken in any order if any two of them may. -/
theorem agree_foldlM_perm {f : α → β → ReadM α} {E : α → α → Prop} (hsymm : ∀ a b, E a b → E b a)
    (htrans : ∀ a b c, E a b → E b c → E a c)
    (hstep : ∀ b a a', E a a' → Agree E (f a b) (f a' b)) {A : β → β → Prop}
    (hapart : ∀ b c, A b c → A c b)
    (hswap : ∀ b c, A b c → ∀ a a', E a a' →
      Agree E (f a b >>= (f · c)) (f a' c >>= (f · b)))
    {bs cs : List β} (h : bs.Perm cs) (hbs : bs.Pairwise A) {a a' : α} (ha : E a a') :
    Agree E (bs.foldlM f a) (cs.foldlM f a') := by
  have hrest : ∀ bs : List β, ∀ a a', E a a' → Agree E (bs.foldlM f a) (bs.foldlM f a') :=
    fun bs a a' ha => agree_foldlM (List.forall₂_same.mpr fun b _ => hstep b) ha
  induction h generalizing a a' with
  | nil => exact agree_pure ha
  | cons b _ ih =>
      rw [List.foldlM_cons, List.foldlM_cons]
      exact (hstep b a a' ha).bind fun _ _ hab => ih (List.pairwise_cons.mp hbs).2 hab
  | swap b c l =>
      have hboth := (hswap c b ((List.pairwise_cons.mp hbs).1 b List.mem_cons_self) a a' ha).bind
        (hrest l)
      simpa only [List.foldlM_cons, bind_assoc] using hboth
  | trans h _ ih ih' =>
      have hsame : E a' a' := htrans _ _ _ (hsymm _ _ ha) ha
      exact (ih hbs ha).trans (ih' ((h.pairwise_iff fun {b c} => hapart b c).mp hbs) hsame) htrans

/-- The step reads a value, whatever is there so far, and puts it in its place. -/
def Updates (I : α → Prop) (T : (α → α) → Prop) (f : α → ReadM α) : Prop :=
  ∃ (V : Type) (r : ReadM V) (u : V → α → α), Steady r ∧ (∀ v, T (u v)) ∧
    ∀ a, I a → f a = r >>= fun v => pure (u v a)

section

variable {I : α → Prop} {T T' : (α → α) → Prop} {f g : α → ReadM α} {E : α → α → Prop}

theorem Updates.agree (hf : Updates I T f) (hI : ∀ a a', E a a' → I a ∧ I a')
    (hT : ∀ u, T u → ∀ a a', E a a' → E (u a) (u a')) {a a' : α} (ha : E a a') :
    Agree E (f a) (f a') := by
  obtain ⟨V, r, u, hr, hu, hf⟩ := hf
  rw [hf a (hI a a' ha).1, hf a' (hI a a' ha).2]
  exact Agree.bind_pure hr fun v w hvw => hvw ▸ hT _ (hu v) a a' ha

theorem Updates.steady (hf : Updates (fun _ => True) T f) (a : α) : Steady (f a) :=
  hf.agree (fun _ _ _ => ⟨trivial, trivial⟩) (fun u _ _ _ => congrArg u) rfl

theorem Updates.agree_swap (hf : Updates I T f) (hg : Updates I T' g)
    (hI : ∀ a a', E a a' → I a ∧ I a') (hT : ∀ u, T u → ∀ a, I a → I (u a))
    (hT' : ∀ u, T' u → ∀ a, I a → I (u a))
    (hswap : ∀ u v, T u → T' v → ∀ a a', E a a' → E (v (u a)) (u (v a'))) {a a' : α}
    (ha : E a a') : Agree E (f a >>= g) (g a' >>= f) := by
  obtain ⟨V, r, u, hr, hu, hf⟩ := hf
  obtain ⟨W, s, v, hs, hv, hg⟩ := hg
  obtain ⟨hIa, hIa'⟩ := hI a a' ha
  rw [hf a hIa, hg a' hIa', bind_assoc, bind_assoc]
  simp only [pure_bind, hg _ (hT _ (hu _) a hIa), hf _ (hT' _ (hv _) a' hIa')]
  exact ReadM.agree_swap hr hs fun x y => hswap _ _ (hu x) (hv y) a a' ha

end

theorem steady_mapM {f : α → ReadM γ} (h : ∀ a, Steady (f a)) (as : List α) :
    Steady (as.mapM f) := by
  induction as with
  | nil => exact steady_pure []
  | cons a as ih =>
      rw [List.mapM_cons]
      exact (h a).bind fun c => ih.bind fun cs => steady_pure (c :: cs)

theorem steady_foldlM {f : α → β → ReadM α} (h : ∀ a b, Steady (f a b)) (bs : List β) (a : α) :
    Steady (bs.foldlM f a) := by
  induction bs generalizing a with
  | nil => exact steady_pure a
  | cons b bs ih =>
      rw [List.foldlM_cons]
      exact (h a b).bind ih

end ReadM

end Marshal
