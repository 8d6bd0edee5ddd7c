import Mathlib.Data.List.Induction
import Marshal.Proofs.Discriminators

/-!
Histories of discriminators. What a base type has for a value, and whether it has a default, is told
by what has been done to that base type since its mapping was last replaced or taken out; what has
been done to other base types does not count. The two ways to choose a factory agree.
-/

namespace Marshal

theorem DiscriminatorMapping.get?_insert {α : Type} (m : DiscriminatorMapping α)
    (value other : String) (f : Factory α) :
    (m.insert value f).get? other = if other = value then some f else m.get? other := by
  rw [get?, insert]
  split
  · rename_i h
    rw [h]
    exact Members.get?_put_self ..
  · rename_i h
    exact Members.get?_put_of_ne h f

namespace Discriminators

variable {ι : Type} {M : ι → Type}

inductive Action (M : ι → Type)
  | setKey (key : String)
  /-- The whole mapping of a base type is replaced. -/
  | setMapping (b : ι) (m : DiscriminatorMapping (M b))
  | insert (b : ι) (value : String) (f : Factory (M b))
  | setDefault (b : ι) (f : Factory (M b))
  /-- The mapping of a base type is taken out. -/
  | erase (b : ι)

namespace Action

def base? : Action M → Option ι
  | setKey _ => none
  | setMapping b _ | insert b _ _ | setDefault b _ | erase b => some b

def key? : Action M → Option String
  | setKey key => some key
  | _ => none

variable (b : ι)

def Resets : Action M → Prop
  | setMapping c _ | erase c => c = b
  | _ => False

def Maps (value : String) : Action M → Prop
  | setMapping c m => c = b ∧ (m.get? value).isSome
  | insert c v _ => c = b ∧ v = value
  | _ => False

def MapsDefault : Action M → Prop
  | setMapping c m => c = b ∧ m.default.isSome
  | setDefault c _ => c = b
  | _ => False

variable {b} {a : Action M}

theorem base?_of_resets (h : a.Resets b) : a.base? = some b := by
  cases a with
  | setMapping | erase => exact congrArg some h
  | _ => cases h

theorem base?_of_maps {value : String} (h : a.Maps b value) : a.base? = some b := by
  cases a with
  | setMapping | insert => exact congrArg some h.1
  | _ => cases h

theorem base?_of_mapsDefault (h : a.MapsDefault b) : a.base? = some b := by
  cases a with
  | setMapping => exact congrArg some h.1
  | setDefault => exact congrArg some h
  | _ => cases h

end Action

/-! ### What a history says -/

/-- Something has been done that `p` says, and nothing that `q` says has been done since. -/
def Since (p q : Action M → Prop) (history : List (Action M)) : Prop :=
  ∃ before a since, history = before ++ a :: since ∧ p a ∧ ∀ c ∈ since, ¬ q c

def Mapped (history : List (Action M)) (b : ι) (value : String) : Prop :=
  Since (Action.Maps b value) (Action.Resets b) history

def HasDefault (history : List (Action M)) (b : ι) : Prop :=
  Since (Action.MapsDefault b) (Action.Resets b) history

section

variable {p q : Action M → Prop}

theorem not_since_nil : ¬ Since p q [] := by
  rintro ⟨before, a, since, heq, -⟩
  simp at heq

theorem since_concat {history : List (Action M)} {a : Action M} :
    Since p q (history ++ [a]) ↔ p a ∨ ¬ q a ∧ Since p q history := by
  constructor
  · rintro ⟨before, c, since, heq, hc, hsince⟩
    -- Either it was the last action, or the last action is one of those since then.
    rcases List.eq_nil_or_concat since with rfl | ⟨since, z, rfl⟩
    · obtain ⟨-, hac⟩ := List.append_inj' heq rfl
      rw [List.singleton_inj.mp hac]
      exact .inl hc
    · rw [List.concat_eq_append] at heq hsince
      have heq' : history ++ [a] = (before ++ c :: since) ++ [z] := by simpa using heq
      obtain ⟨hhistory, haz⟩ := List.append_inj' heq' rfl
      obtain rfl := List.singleton_inj.mp haz
      rw [List.forall_mem_append] at hsince
      exact .inr ⟨hsince.2 a List.mem_cons_self, before, c, since, hhistory, hc, hsince.1⟩
  · rintro (ha | ⟨ha, before, c, since, rfl, hc, hsince⟩)
    · exact ⟨history, a, [], rfl, ha, List.forall_mem_nil _⟩
    · refine ⟨before, c, since ++ [a], by simp, hc, ?_⟩
      rw [List.forall_mem_append]
      exact ⟨hsince, List.forall_mem_singleton.mpr ha⟩

end

variable [DecidableEq ι]

namespace Action

def perform : Action M → Discriminators M → Discriminators M
  | setKey key, d => { d with key }
  | setMapping b m, d => d.setMapping b m
  | insert b value f, d => d.insert b value f
  | setDefault b f, d => d.setDefault b f
  | erase b, d => (d.erase? b).getD d

def act (b : ι) :
    Action M → Option (DiscriminatorMapping (M b)) → Option (DiscriminatorMapping (M b))
  | setKey _, m => m
  | setMapping c n, m => if h : c = b then some (h ▸ n) else m
  | insert c value f, m => if h : c = b then some ((m.getD {}).insert value (h ▸ f)) else m
  | setDefault c f, m =>
    if h : c = b then some { m.getD {} with default := some (h ▸ f) } else m
  | erase c, m => if c = b then none else m

end Action

def after (history : List (Action M)) : Discriminators M :=
  history.foldl (fun d a => a.perform d) {}

/-! ### Mappings of base types -/

section

variable {b c : ι} (l : List ((b : ι) × DiscriminatorMapping (M b)))

theorem findMapping?_putMapping_self (m : DiscriminatorMapping (M b)) :
    findMapping? b (putMapping b m l) = some m := by
  induction l with
  | nil => exact dif_pos rfl
  | cons x l ih =>
      rw [putMapping]
      split
      · exact dif_pos rfl
      · rename_i h
        rw [findMapping?, dif_neg h, ih]

theorem findMapping?_putMapping_of_ne (h : c ≠ b) (m : DiscriminatorMapping (M c)) :
    findMapping? b (putMapping c m l) = findMapping? b l := by
  induction l with
  | nil => exact dif_neg h
  | cons x l ih =>
      rw [putMapping]
      split
      · rename_i hx
        rw [findMapping?, findMapping?, dif_neg h, dif_neg (hx ▸ h)]
      · rw [findMapping?, findMapping?, ih]

theorem findMapping?_filter_self : findMapping? b (l.filter fun x => x.1 ≠ b) = none := by
  induction l with
  | nil => rfl
  | cons x l ih =>
      by_cases hx : x.1 = b
      · rw [List.filter_cons_of_neg (by simpa using hx), ih]
      · rw [List.filter_cons_of_pos (by simpa using hx), findMapping?, dif_neg hx, ih]

theorem findMapping?_filter_of_ne (h : c ≠ b) :
    findMapping? b (l.filter fun x => x.1 ≠ c) = findMapping? b l := by
  induction l with
  | nil => rfl
  | cons x l ih =>
      by_cases hx : x.1 = c
      · rw [List.filter_cons_of_neg (by simpa using hx), ih, findMapping?, dif_neg (hx ▸ h)]
      · rw [List.filter_cons_of_pos (by simpa using hx), findMapping?, findMapping?, ih]

end

section

variable {b c : ι} (d : Discriminators M)

theorem mapping?_setMapping_self (m : DiscriminatorMapping (M b)) :
    (d.setMapping b m).mapping? b = some m :=
  findMapping?_putMapping_self ..

theorem mapping?_setMapping_of_ne (h : c ≠ b) (m : DiscriminatorMapping (M c)) :
    (d.setMapping c m).mapping? b = d.mapping? b :=
  findMapping?_putMapping_of_ne _ h m

/-- What is not there is taken out as well. -/
theorem mappings_erase (c : ι) : ((Action.erase c).perform d).mapping? b =
    findMapping? b (d.mappings.filter fun x => x.1 ≠ c) := by
  rw [Action.perform, erase?]
  cases hc : d.mapping? c with
  | some m => rfl
  | none =>
      show findMapping? b d.mappings = _
      by_cases h : c = b
      · subst h
        rw [findMapping?_filter_self]
        exact hc
      · rw [findMapping?_filter_of_ne _ h]

end

/-! ### One action -/

section

variable {b : ι} (a : Action M)

theorem key_perform (d : Discriminators M) : (a.perform d).key = a.key?.getD d.key := by
  cases a with
  | erase c =>
      rw [Action.perform, erase?]
      cases d.mapping? c <;> rfl
  | _ => rfl

/-- An action does to the mapping of each base type what `act` says. -/
theorem mapping?_perform (d : Discriminators M) :
    (a.perform d).mapping? b = a.act b (d.mapping? b) := by
  cases a with
  | setKey key => rfl
  | setMapping c m =>
      by_cases h : c = b
      · subst h
        rw [Action.perform, mapping?_setMapping_self, Action.act, dif_pos rfl]
      · rw [Action.perform, mapping?_setMapping_of_ne d h, Action.act, dif_neg h]
  | insert c value f =>
      by_cases h : c = b
      · subst h
        rw [Action.perform, insert, update, mapping?_setMapping_self, Action.act, dif_pos rfl]
      · rw [Action.perform, insert, update, mapping?_setMapping_of_ne d h, Action.act, dif_neg h]
  | setDefault c f =>
      by_cases h : c = b
      · subst h
        rw [Action.perform, setDefault, update, mapping?_setMapping_self, Action.act, dif_pos rfl]
      · rw [Action.perform, setDefault, update, mapping?_setMapping_of_ne d h, Action.act,
          dif_neg h]
  | erase c =>
      rw [mappings_erase, Action.act]
      by_cases h : c = b
      · subst h
        rw [if_pos rfl, findMapping?_filter_self]
      · rw [if_neg h, findMapping?_filter_of_ne _ h]
        rfl

end

namespace Action

variable {b : ι} (a : Action M) (m : Option (DiscriminatorMapping (M b)))

theorem act_of_ne (h : a.base? ≠ some b) : a.act b m = m := by
  cases a with
  | setKey key => rfl
  | setMapping c _ | insert c _ _ | setDefault c _ | erase c =>
      have hc : c ≠ b := fun hc => h (congrArg some hc)
      simp [act, hc]

/-- There is a factory for a value after an action if the action gives one, or if it leaves the one
that is there. -/
theorem isSome_get?_act (value : String) :
    ((a.act b m).bind (·.get? value)).isSome ↔
      a.Maps b value ∨ ¬ a.Resets b ∧ (m.bind (·.get? value)).isSome := by
  by_cases hb : a.base? = some b
  · cases a with
    | setKey key => cases hb
    | setMapping c n =>
        obtain rfl := Option.some.inj hb
        simp [act, Maps, Resets]
    | insert c v f =>
        obtain rfl := Option.some.inj hb
        have hget : ((m.getD {}).get? value).isSome = (m.bind (·.get? value)).isSome := by
          cases m <;> rfl
        by_cases hv : value = v
        · simp [act, Maps, Resets, DiscriminatorMapping.get?_insert, hv]
        · simp [act, Maps, Resets, DiscriminatorMapping.get?_insert, hv, Ne.symm hv, hget]
    | setDefault c f =>
        obtain rfl := Option.some.inj hb
        cases m <;> simp [act, Maps, Resets, DiscriminatorMapping.get?, Members.get?]
    | erase c =>
        obtain rfl := Option.some.inj hb
        simp [act, Maps, Resets]
  · have hmaps : ¬ a.Maps b value := mt base?_of_maps hb
    have hresets : ¬ a.Resets b := mt base?_of_resets hb
    rw [act_of_ne a m hb]
    simp [hmaps, hresets]

theorem isSome_default_act :
    ((a.act b m).bind (·.default)).isSome ↔
      a.MapsDefault b ∨ ¬ a.Resets b ∧ (m.bind (·.default)).isSome := by
  by_cases hb : a.base? = some b
  · cases a with
    | setKey key => cases hb
    | setMapping c n =>
        obtain rfl := Option.some.inj hb
        simp [act, MapsDefault, Resets]
    | insert c v f =>
        obtain rfl := Option.some.inj hb
        cases m <;> simp [act, MapsDefault, Resets, DiscriminatorMapping.insert]
    | setDefault c f =>
        obtain rfl := Option.some.inj hb
        simp [act, MapsDefault]
    | erase c =>
        obtain rfl := Option.some.inj hb
        simp [act, MapsDefault, Resets]
  · have hmaps : ¬ a.MapsDefault b := mt base?_of_mapsDefault hb
    have hresets : ¬ a.Resets b := mt base?_of_resets hb
    rw [act_of_ne a m hb]
    simp [hmaps, hresets]

end Action

/-! ### Histories -/

theorem after_concat (history : List (Action M)) (a : Action M) :
    after (history ++ [a]) = a.perform (after history) := by
  rw [after, List.foldl_concat]
  rfl

section

variable {history : List (Action M)} {b : ι}

/-- The base type has a factory for exactly the values that have been mapped. -/
theorem isSome_mapped?_after {value : String} :
    ((after history).mapped? b value).isSome ↔ Mapped history b value := by
  induction history using List.reverseRecOn with
  | nil => exact iff_of_false Bool.false_ne_true not_since_nil
  | append_singleton history a ih =>
      rw [after_concat, mapped?, mapping?_perform, a.isSome_get?_act, Mapped, since_concat]
      exact or_congr_right (and_congr_right fun _ => ih)

theorem isSome_default_after :
    (((after history).mapping? b).bind (·.default)).isSome ↔ HasDefault history b := by
  induction history using List.reverseRecOn with
  | nil => exact iff_of_false Bool.false_ne_true not_since_nil
  | append_singleton history a ih =>
      rw [after_concat, mapping?_perform, a.isSome_default_act, HasDefault, since_concat]
      exact or_congr_right (and_congr_right fun _ => ih)

end

/-! ### Other base types -/

/-- Nothing that a choice for the base type looks at is different. -/
structure Alike (b : ι) (d e : Discriminators M) : Prop where
  key : d.key = e.key
  mapping? : d.mapping? b = e.mapping? b

section

variable {b c : ι} {d e : Discriminators M} {a : Action M}

theorem Alike.perform (h : Alike b d e) (a : Action M) : Alike b (a.perform d) (a.perform e) where
  key := by rw [key_perform, key_perform, h.key]
  mapping? := by rw [mapping?_perform, mapping?_perform, h.mapping?]

theorem Alike.foldl (h : Alike b d e) (since : List (Action M)) :
    Alike b (since.foldl (fun d a => a.perform d) d)
      (since.foldl (fun d a => a.perform d) e) := by
  induction since generalizing d e with
  | nil => exact h
  | cons a since ih => exact ih (h.perform a)

theorem alike_perform_of_other (ha : a.base? = some c) (hc : c ≠ b) : Alike b (a.perform d) d where
  key := by
    rw [key_perform]
    cases a with
    | setKey => cases ha
    | _ => rfl
  mapping? := by
    rw [mapping?_perform]
    exact a.act_of_ne _ fun hb => hc (Option.some.inj (ha.symm.trans hb))

/-- Left out of a history, an action on another base type is not missed. -/
theorem alike_after_of_other (before since : List (Action M)) (ha : a.base? = some c)
    (hc : c ≠ b) : Alike b (after (before ++ a :: since)) (after (before ++ since)) := by
  rw [after, after, List.foldl_append, List.foldl_append, List.foldl_cons]
  exact (alike_perform_of_other ha hc).foldl since

variable (h : Alike b d e) (n : Node)

include h

theorem Alike.value? : d.value? n = e.value? n := by
  rw [Discriminators.value?, Discriminators.value?, h.key]

theorem Alike.match? : d.match? b n = e.match? b n := by
  rw [Discriminators.match?, Discriminators.match?, h.mapping?, h.value? n]

theorem Alike.resolve (f : Factory (M b)) : d.resolve b n f = e.resolve b n f := by
  rw [Discriminators.resolve, Discriminators.resolve, h.match?]

theorem Alike.resolveStrictly (name : String) :
    d.resolveStrictly b name n = e.resolveStrictly b name n := by
  rw [Discriminators.resolveStrictly, Discriminators.resolveStrictly, h.match?, h.mapping?,
    h.value?]

end

/-! ### The two choices -/

section

variable (d : Discriminators M) (b : ι) (name : String) (n : Node)

/-- A new default changes nothing about the values that are mapped. -/
theorem mapped?_setDefault (f : Factory (M b)) : (d.setDefault b f).mapped? b = d.mapped? b := by
  funext value
  rw [mapped?, mapped?, setDefault, update, mapping?_setMapping_self]
  cases d.mapping? b <;> rfl

theorem resolveStrictly_setDefault (f : Factory (M b)) :
    (d.setDefault b f).resolveStrictly b name n = .ok (d.resolve b n f) := by
  have hvalue : (d.setDefault b f).value? n = d.value? n := rfl
  have hdefault : ((d.setDefault b f).mapping? b).bind (·.default) = some f := by
    rw [setDefault, update, mapping?_setMapping_self]
    rfl
  rw [resolveStrictly, match?_eq, hvalue, mapped?_setDefault, hdefault, resolve_eq]
  cases (d.value? n).bind (d.mapped? b) <;> rfl

theorem resolveStrictly_eq_error_iff {e : Error} :
    d.resolveStrictly b name n = .error e ↔
      e = .parse n.path (.noFactory (d.value? n) name) ∧
        ¬ ((d.mapping? b).bind (·.default)).isSome ∧
        ∀ v, d.value? n = some v → ¬ (d.mapped? b v).isSome := by
  rw [resolveStrictly, match?_eq]
  cases hmatch : (d.value? n).bind (d.mapped? b) with
  | some f =>
      obtain ⟨v, hv, hf⟩ := Option.bind_eq_some_iff.mp hmatch
      refine iff_of_false (by rintro ⟨⟩) ?_
      rintro ⟨-, -, habsent⟩
      exact habsent v hv (by rw [hf]; rfl)
  | none =>
      have habsent : ∀ v, d.value? n = some v → ¬ (d.mapped? b v).isSome := by
        intro v hv
        rw [hv, Option.bind_some] at hmatch
        rw [hmatch]
        exact Bool.false_ne_true
      cases hdefault : (d.mapping? b).bind (·.default) with
      | some f => exact iff_of_false (by rintro ⟨⟩) fun h => h.2.1 rfl
      | none =>
          constructor
          · rintro ⟨⟩
            exact ⟨rfl, Bool.false_ne_true, habsent⟩
          · rintro ⟨rfl, -⟩
            rfl

end

/-- After every history: the choice with a fallback is the one without after the fallback has been
made the default; the one without fails, at the path of the node, if and only if the base type has
no default and the discriminator is absent or not mapped; and neither depends on what has been done
to another base type. -/
theorem choices_of_history (history : List (Action M)) (b : ι) (name : String) (n : Node)
    (f : Factory (M b)) :
    (after (history ++ [.setDefault b f])).resolveStrictly b name n =
        .ok ((after history).resolve b n f) ∧
      (∀ e, (after history).resolveStrictly b name n = .error e ↔
        e = .parse n.path (.noFactory ((after history).value? n) name) ∧
          ¬ HasDefault history b ∧
          ∀ v, (after history).value? n = some v → ¬ Mapped history b v) ∧
      ∀ before a since c, history = before ++ a :: since → a.base? = some c → c ≠ b →
        (after history).resolve b n f = (after (before ++ since)).resolve b n f ∧
        (after history).resolveStrictly b name n =
          (after (before ++ since)).resolveStrictly b name n := by
  refine ⟨?_, fun e => ?_, ?_⟩
  · rw [after_concat]
    exact resolveStrictly_setDefault _ b name n f
  · simp only [resolveStrictly_eq_error_iff, isSome_default_after, isSome_mapped?_after]
  · rintro before a since c rfl ha hc
    have halike := alike_after_of_other before since ha hc
    exact ⟨halike.resolve n f, halike.resolveStrictly n name⟩

end Discriminators

namespace ModelDiscriminators

open Discriminators DirectoryObject

def replaced (others : List (Action ModelType.Carrier)) : List (Action ModelType.Carrier) :=
  .insert .directoryObject userType createUser :: others ++
    [.setMapping .directoryObject (.ofList [(groupType, createGroup)] none), .setKey "kind"]

/-- A user is no longer mapped then, whatever has been said of contacts. -/
theorem choices_of_history_replaced :
    let history := replaced [.setDefault .contact Parsable.create]
    let n : Node := .json { value := .object [("kind", .string userType)], steps := ["value"] }
    (after history).resolveStrictly .directoryObject "DirectoryObject" n =
        .error (.parse "/value" (.noFactory (some userType) "DirectoryObject")) ∧
      ¬ HasDefault history .directoryObject ∧ ¬ Mapped history .directoryObject userType ∧
      (after (replaced [])).resolveStrictly .directoryObject "DirectoryObject" n =
        .error (.parse "/value" (.noFactory (some userType) "DirectoryObject")) := by
  intro history n
  have herror : (after history).resolveStrictly .directoryObject "DirectoryObject" n =
      .error (.parse "/value" (.noFactory (some userType) "DirectoryObject")) := by
    rfl
  obtain ⟨-, hfails, hothers⟩ :=
    choices_of_history history .directoryObject "DirectoryObject" n Parsable.create
  obtain ⟨-, hdefault, hmapped⟩ := (hfails _).mp herror
  obtain ⟨-, hsame⟩ := hothers [.insert .directoryObject userType createUser]
    (.setDefault .contact Parsable.create) _ .contact rfl rfl (by decide)
  exact ⟨herror, hdefault, hmapped userType rfl, hsame.symm.trans herror⟩

end ModelDiscriminators

end Marshal
