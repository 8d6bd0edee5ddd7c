import Marshal.Discriminators
import Marshal.Proofs.Field
import Marshal.Proofs.Json.Twins

/-!
Reading models from nodes that differ in the order of members only. Of a model it takes that the
readers of its fields can be run in any order; then what is read is the same at every level.
-/

namespace Marshal

/-- What the factory makes for twins is related. -/
def Factory.Orderless {α : Type} (R : α → α → Prop) (f : Factory α) : Prop :=
  ∀ n m : Node, n.Twin m → Result.Agree R (f n) (f m)

namespace Discriminators

variable {ι : Type} {M : ι → Type} (d : Discriminators M)

/-- The discriminator is found wherever it stands. -/
theorem value?_eq_of_twin {n m : Node} (h : n.Twin m) : d.value? n = d.value? m := by
  obtain ⟨n, m, rfl, rfl, h⟩ := h.exists_json
  have hchild := Node.Twin.child? h d.key
  rw [value?, value?]
  generalize (Node.json n).child? d.key = x, (Node.json m).child? d.key = y at hchild
  cases hchild with
  | error e e' => rfl
  | ok hfound =>
      cases hfound with
      | none => rfl
      | some hcd =>
          obtain ⟨c, c', rfl, rfl, hcd⟩ := hcd.exists_json
          have htext := hcd.read? .string
          dsimp only [Node.text?, Node.read?]
          generalize c.read? .string = s, c'.read? .string = t at htext
          cases htext with
          | error e e' => rfl
          | ok hst => rw [hst]

variable [DecidableEq ι] {b : ι}

theorem resolve_eq_of_twin (b : ι) {n m : Node} (h : n.Twin m) : d.resolve b n = d.resolve b m := by
  funext f
  rw [resolve, resolve, match?, match?, d.value?_eq_of_twin h]

theorem orderless_resolve {R : M b → M b → Prop}
    (h : ∀ m ∈ d.mapping? b, ∀ f ∈ m.factories, Factory.Orderless R f.2) (n : Node)
    {f : Factory (M b)} (hf : Factory.Orderless R f) : Factory.Orderless R (d.resolve b n f) := by
  rw [resolve]
  cases hmatch : d.match? b n with
  | none => exact hf
  | some g =>
      simp only [match?, Option.bind_eq_bind, Option.bind_eq_some_iff] at hmatch
      obtain ⟨m, hm, value, -, hg⟩ := hmatch
      exact h m hm _ (Members.mem_of_get? hg)

end Discriminators

namespace Parsable

variable {α : Type} {R : α → α → Prop}

open ReadM

theorem agree_readAll? {read : Node → ReadM (Option α)}
    (hread : ∀ n m : Node, n.Twin m → Agree (Option.Rel R) (read n) (read m)) {n m : Node}
    (hnm : n.Twin m) :
    Agree (Option.Rel (List.Forall₂ R)) (readAll? read n) (readAll? read m) := by
  obtain ⟨j, k, rfl, rfl, hjk⟩ := hnm.exists_json
  rw [readAll?, readAll?]
  refine (agree_ofResult (Node.Twin.elements? hjk)).bind fun found found' hfound => ?_
  cases hfound with
  | none => exact agree_pure .none
  | some hitems =>
      refine (agree_mapM (hitems.imp hread)).bind_pure fun as bs hab => .some ?_
      exact List.rel_filterMap (fun _ _ h => h) hab

variable [Parsable α] {c : Reading.Context α}

theorem steady_observe (phase : Phase) (a : α) (l : Layer) : Steady (observe phase a l) := by
  rcases observe_cases phase a l with ⟨b, hb⟩ | ⟨b, f, hb⟩
  · rw [hb]
    exact steady_pure b
  · rw [hb]
    exact (steady_modify f).bind fun _ => steady_pure b

theorem steady_readAt (hassign : ∀ self : Node → ReadM (Option α), (∀ n, Steady (self n)) →
      ∀ o a m, Steady (assign (fieldReaders self o) a m)) (fuel : Nat) (f : Factory α) (n : Node) :
    Steady (readAt c fuel f n) := by
  induction fuel generalizing f n with
  | zero => exact steady_pure none
  | succ fuel ih =>
      rw [readAt_succ]
      refine (steady_ofResult _).bind fun found => ?_
      cases found with
      | none => exact steady_pure none
      | some members =>
          refine (steady_ofResult _).bind fun a => ?_
          refine Steady.bind ?_ fun a => steady_pure (some a)
          refine (steady_foldlM (fun a l => steady_observe .before a l) c.layers a).bind fun a => ?_
          refine Steady.bind ?_ fun a => steady_foldlM (fun a l => steady_observe .after a l) _ a
          exact steady_foldlM (hassign _ (fun n => ih create n) a) members a

/-- What a model owes for the order of members not to count. -/
structure Orderless (α : Type) [Parsable α] (R : α → α → Prop) : Prop where
  create : Factory.Orderless R create
  keep : ∀ keep ∈ keep? (α := α), ∀ key b a a', R a a' →
    R (keep key (.bool b) a) (keep key (.bool b) a')
  setInitialized : ∀ i (a a' : α), R a a' → R (setInitialized i a) (setInitialized i a')
  steady : ∀ self : Node → ReadM (Option α), (∀ n, Steady (self n)) →
    ∀ o a m, Steady (assign (fieldReaders self o) a m)
  assign : ∀ self : Node → ReadM (Option α), (∀ n, Steady (self n)) →
    (∀ n m : Node, n.Twin m → Agree (Option.Rel R) (self n) (self m)) →
    ∀ ms ns, Node.Rearranged ms ns → ∀ o o', R o o' →
      Agree R (ms.foldlM (assign (fieldReaders self o)) o)
        (ns.foldlM (assign (fieldReaders self o')) o')

theorem Orderless.observe (h : Orderless α R) (phase : Phase) (l : Layer) {a a' : α}
    (ha : R a a') : Agree R (observe phase a l) (observe phase a' l) := by
  cases l with
  | changes => exact agree_pure (h.setInitialized _ _ _ ha)
  | observer o =>
      rw [Parsable.observe, Parsable.observe]
      by_cases hseen : (if phase = .before then o.before else o.after) = true
      · rw [if_pos hseen, if_pos hseen]
        refine Agree.bind (R := fun _ _ => True) (fun _ _ => .ok trivial) fun _ _ _ => ?_
        have hkeep := h.keep
        generalize keep? (α := α) = keep at hkeep
        split
        · exact agree_pure (hkeep _ rfl _ _ _ _ ha)
        · exact agree_pure ha
      · rw [if_neg hseen, if_neg hseen]
        exact agree_pure ha

theorem Orderless.observeAll (h : Orderless α R) (phase : Phase) (layers : List Layer) {a a' : α}
    (ha : R a a') :
    Agree R (layers.foldlM (Parsable.observe phase) a)
      (layers.foldlM (Parsable.observe phase) a') :=
  agree_foldlM (List.forall₂_same.mpr fun l _ _ _ hab => h.observe phase l hab) ha

section

variable (h : Orderless α R) (hresolve : ∀ n m : Node, n.Twin m → c.resolve n = c.resolve m)
  (hfactories : ∀ n f, Factory.Orderless R f → Factory.Orderless R (c.resolve n f))
include h hresolve hfactories

theorem Orderless.readAt (fuel : Nat) {f : Factory α} (hf : Factory.Orderless R f) {n m : Node}
    (hnm : n.Twin m) :
    Agree (Option.Rel R) (Parsable.readAt c fuel f n) (Parsable.readAt c fuel f m) := by
  induction fuel generalizing f n m with
  | zero => exact agree_pure .none
  | succ fuel ih =>
      obtain ⟨j, k, rfl, rfl, hjk⟩ := hnm.exists_json
      rw [Parsable.readAt_succ, Parsable.readAt_succ, hresolve _ _ hnm]
      refine (agree_ofResult (Node.Twin.members? hjk)).bind fun found found' hfound => ?_
      cases hfound with
      | none => exact agree_pure .none
      | some hmembers =>
          refine (agree_ofResult (hfactories _ f hf _ _ hnm)).bind fun a a' ha => ?_
          refine Agree.bind_pure ?_ fun a a' ha => Option.Rel.some ha
          refine (h.observeAll .before c.layers ha).bind fun a a' ha => ?_
          refine Agree.bind ?_ fun a a' ha => h.observeAll .after c.layers ha
          exact h.assign _ (fun n => steady_readAt h.steady fuel Parsable.create n)
            (fun n m hnm => ih h.create hnm) _ _ hmembers a a' ha

theorem Orderless.read? {f : Factory α} (hf : Factory.Orderless R f) {n m : Node}
    (hnm : n.Twin m) :
    Agree (Option.Rel R) (Parsable.read? c f n) (Parsable.read? c f m) := by
  have hrank : n.rank = m.rank := by
    obtain ⟨j, k, rfl, rfl, hjk⟩ := hnm.exists_json
    exact Json.rank_eq_of_same hjk.same
  rw [Parsable.read?, Parsable.read?, hrank]
  exact h.readAt hresolve hfactories _ hf hnm

end

end Parsable

/-! ### Codecs -/

namespace Codec

open ReadM

def Orderless {V : Type} (c : Codec V) : Prop :=
  ∀ n m : Node, n.Twin m → Agree Eq (ofResult (c.read? n)) (ofResult (c.read? m))

theorem agree_read? (k : Kind) {n m : Node} (h : n.Twin m) :
    Agree Eq (ofResult (n.read? k)) (ofResult (m.read? k)) := by
  obtain ⟨j, l, rfl, rfl, hjl⟩ := h.exists_json
  exact agree_ofResult (hjl.read? k)

theorem agree_readNode? {V : Type} (e : WireEnum V) {n m : Node} (h : n.Twin m) :
    Agree Eq (ofResult (e.readNode? n)) (ofResult (e.readNode? m)) := by
  rw [WireEnum.readNode?, WireEnum.readNode?, ofResult_bind, ofResult_bind]
  exact (agree_read? .string h).bind_pure fun s t hst => by rw [hst]

theorem rel_of_eq {α : Type} {a b : Option α} (h : a = b) : Option.Rel Eq a b := by
  subst h
  cases a with
  | none => exact .none
  | some a => exact .some rfl

theorem eq_of_rel_forall₂ {α : Type} {a b : Option (List α)}
    (h : Option.Rel (List.Forall₂ Eq) a b) : a = b := by
  cases h with
  | none => rfl
  | some h => rw [List.forall₂_eq_eq_eq] at h; rw [h]

theorem orderless_codec (k : Kind) : Orderless k.codec :=
  fun _ _ h => agree_read? k h

theorem orderless_listCodec (k : Kind) : Orderless k.listCodec := by
  intro n m h
  show Agree Eq (ofResult (n.readList? k)) (ofResult (m.readList? k))
  rw [Parsable.readList?_eq_readAll?, Parsable.readList?_eq_readAll?]
  refine (Parsable.agree_readAll? (R := Eq) (fun n m h => ?_) h).mono fun _ _ => eq_of_rel_forall₂
  exact (agree_read? k h).mono fun _ _ => rel_of_eq

variable {V : Type} [DecidableEq V]

theorem orderless_enum (e : WireEnum V) : Orderless e.codec :=
  fun _ _ h => agree_readNode? e h

theorem orderless_enumList (e : WireEnum V) : Orderless e.listCodec := by
  intro n m h
  show Agree Eq (ofResult (e.readNodes? n)) (ofResult (e.readNodes? m))
  rw [Parsable.readNodes?_eq_readAll?, Parsable.readNodes?_eq_readAll?]
  refine (Parsable.agree_readAll? (R := Eq) (fun n m h => ?_) h).mono fun _ _ => eq_of_rel_forall₂
  exact (agree_readNode? e h).mono fun _ _ => rel_of_eq

end Codec

namespace Field

open ReadM

variable {α β : Type} {p : Projection β α} {f : Field α}

theorem steady_lift (n : Node) (b : β) : Steady ((FieldReaders.lift p f.reader n).on b) := by
  rw [FieldReaders.on_lift]
  cases p.get? b with
  | none => exact steady_pure b
  | some a =>
      simp only [on_reader]
      exact ((steady_ofResult _).bind fun v => steady_pure _).bind fun a => steady_pure _

theorem agree_lift (hf : f.codec.Orderless) {n m : Node} (hnm : n.Twin m) (b : β) :
    Agree Eq ((FieldReaders.lift p f.reader n).on b) ((FieldReaders.lift p f.reader m).on b) := by
  rw [FieldReaders.on_lift, FieldReaders.on_lift]
  cases p.get? b with
  | none => exact agree_pure rfl
  | some a =>
      have hread : Agree Eq ((f.reader n).on a) ((f.reader m).on a) := by
        rw [on_reader, on_reader]
        exact (hf n m hnm).bind_pure fun v w hvw => by rw [hvw]
      exact hread.bind_pure fun a a' ha => by rw [ha]

end Field

end Marshal
