import Marshal.Proofs.Json.Node
import Marshal.Proofs.Reading.Filling
import Marshal.Proofs.Reading.Run
import Marshal.Proofs.Trace.Block

/-!
Reading between layers that only record. What they log follows the document: the events of an object
lie around those of the objects within it, which come in the order of its members and items. What is
null is no object, and nothing is logged of it.
-/

namespace Marshal

/-! ### Reading and its log -/

namespace ReadM

variable {α β : Type}

/-- Reading that ends well adds to the log, and what it adds goes with the value. -/
def Logs (r : ReadM α) (P : α → Log → Prop) : Prop :=
  ∀ log a log', (ExceptT.run r).run log = (.ok a, log') → ∃ l, log' = log ++ l ∧ P a l

theorem Logs.of_exec {r : ReadM α} {P : α → Log → Prop} (h : r.Logs P) {a : α} {log : Log}
    (hr : r.exec = (.ok a, log)) : P a log := by
  obtain ⟨l, rfl, hl⟩ := h [] a log hr
  exact hl

theorem Logs.mono {r : ReadM α} {P Q : α → Log → Prop} (h : r.Logs P)
    (hPQ : ∀ a l, P a l → Q a l) : r.Logs Q := by
  intro log a log' hrun
  obtain ⟨l, hl, hP⟩ := h log a log' hrun
  exact ⟨l, hl, hPQ a l hP⟩

theorem logs_pure {P : α → Log → Prop} {a : α} (h : P a []) : Logs (pure a) P := by
  intro log b log' hrun
  cases hrun
  exact ⟨[], (List.append_nil log).symm, h⟩

theorem Logs.bind {r : ReadM α} {f : α → ReadM β} {Q : α → Log → Prop} {P : β → Log → Prop}
    (hr : r.Logs Q) (hf : ∀ a l, Q a l → (f a).Logs fun b l' => P b (l ++ l')) :
    (r >>= f).Logs P := by
  intro log b log' hrun
  obtain ⟨a, log₁, ha, hb⟩ := exists_of_run_bind hrun
  obtain ⟨l, rfl, hl⟩ := hr log a log₁ ha
  obtain ⟨l', rfl, hl'⟩ := hf a l hl _ b log' hb
  exact ⟨l ++ l', List.append_assoc .., hl'⟩

/-- What is looked up first logs nothing. -/
theorem logs_ofResult_bind {r : Result α} {f : α → ReadM β} {P : β → Log → Prop}
    (h : ∀ a, r = .ok a → (f a).Logs P) : (ofResult r >>= f).Logs P := by
  cases r with
  | ok a => exact h a rfl
  | error e =>
      intro log b log' hrun
      cases hrun

theorem Logs.map {r : ReadM α} {f : α → β} {P : β → Log → Prop}
    (h : r.Logs fun a l => P (f a) l) : (r >>= fun a => pure (f a)).Logs P :=
  h.bind fun a l hl => logs_pure (by rwa [List.append_nil])

section Each

variable {R : β → Log → Prop} {I : List β → Log → Prop} (nil : I [] [])
  (cons : ∀ b bs l l', R b l → I bs l' → I (b :: bs) (l ++ l'))

include nil cons

theorem logs_foldlM {f : α → β → ReadM α} {bs : List β}
    (h : ∀ b ∈ bs, ∀ a, (f a b).Logs fun _ => R b) (a : α) :
    (bs.foldlM f a).Logs fun _ => I bs := by
  induction bs generalizing a with
  | nil => exact logs_pure nil
  | cons b bs ih =>
      obtain ⟨hb, hbs⟩ := List.forall_mem_cons.mp h
      rw [List.foldlM_cons]
      exact (hb a).bind fun a' l hl => (ih hbs a').mono fun _ l' => cons b bs l l' hl

theorem logs_mapM {f : β → ReadM α} {bs : List β} (h : ∀ b ∈ bs, (f b).Logs fun _ => R b) :
    (bs.mapM f).Logs fun _ => I bs := by
  induction bs with
  | nil => exact logs_pure nil
  | cons b bs ih =>
      obtain ⟨hb, hbs⟩ := List.forall_mem_cons.mp h
      rw [List.mapM_cons]
      exact hb.bind fun a l hl => Logs.map ((ih hbs).mono fun _ l' => cons b bs l l' hl)

end Each

end ReadM

/-! ### What a document leaves in the log -/

/-- The members of an object that are models of its own type: one that is a single model, and one
that is a collection of them. -/
structure Outline where
  one : String
  many : String

namespace Outline

variable {α : Type} [Parsable α]

section Recorded

variable (α) (o : Outline) (ls : List Observer)

mutual

/-- What layers log of a value that is read as a model: first a block of the model that was just
made, last one of the model that it has become. -/
inductive Recorded : Json → Option α → Log → Prop
  | null : Recorded .null none []
  | object (made a : α) {members : List (String × Json)} {inner : Log}
      (h : RecordedMembers members inner) :
      Recorded (.object members) (some a)
        (Layer.block ls .before (Parsable.glance made) ++
          (inner ++ Layer.block ls .after (Parsable.glance a)))

inductive RecordedMembers : List (String × Json) → Log → Prop
  | nil : RecordedMembers [] []
  | cons {name : String} {v : Json} {members : List (String × Json)} {l inner : Log}
      (h : RecordedMember name v l) (hs : RecordedMembers members inner) :
      RecordedMembers ((name, v) :: members) (l ++ inner)

inductive RecordedMember : String → Json → Log → Prop
  | one {v : Json} {found : Option α} {l : Log} (h : Recorded v found l) :
      RecordedMember o.one v l
  | noItems : RecordedMember o.many .null []
  | items {items : List Json} {l : Log} (h : RecordedItems items l) :
      RecordedMember o.many (.array items) l
  | other {name : String} {v : Json} (h : name ≠ o.one) (h' : name ≠ o.many) :
      RecordedMember name v []

inductive RecordedItems : List Json → Log → Prop
  | nil : RecordedItems [] []
  | cons {v : Json} {found : Option α} {items : List Json} {l inner : Log}
      (h : Recorded v found l) (hs : RecordedItems items inner) :
      RecordedItems (v :: items) (l ++ inner)

end

end Recorded

/-! ### Reading a document -/

variable {o : Outline} {ls : List Observer} {k : Nat} {self : Node → ReadM (Option α)}

/-- A reader of the models that lie in objects of rank `k` logs what it has to. -/
def Follows (o : Outline) (ls : List Observer) (self : Node → ReadM (Option α)) (k : Nat) : Prop :=
  ∀ n : JsonNode, n.value.rank < k → (self (.json n)).Logs (o.Recorded α ls n.value)

theorem Follows.one (h : o.Follows ls self k) {n : JsonNode} (hn : n.value.rank < k) :
    (self (.json n)).Logs fun _ => o.RecordedMember α ls o.one n.value :=
  (h n hn).mono fun _ _ => .one

theorem Follows.many (h : o.Follows ls self k) {n : JsonNode} (hn : n.value.rank < k) :
    (Parsable.readAll? self (.json n)).Logs fun _ => o.RecordedMember α ls o.many n.value := by
  refine ReadM.logs_ofResult_bind fun found hfound => ?_
  rcases Node.elements?_json_ok hfound with ⟨hv, rfl⟩ | ⟨items, hv, rfl⟩
  · rw [hv]
    exact ReadM.logs_pure .noItems
  · rw [hv] at hn ⊢
    have hitems : (((n.itemsBelow 0 items).map Node.json).mapM self).Logs fun _ =>
        o.RecordedItems α ls ((n.itemsBelow 0 items).map (·.value)) := by
      rw [List.mapM_map]
      refine ReadM.logs_mapM (R := fun (c : JsonNode) l => ∃ found, o.Recorded α ls c.value found l)
        (I := fun cs => o.RecordedItems α ls (cs.map JsonNode.value))
        .nil (fun _ _ _ _ ⟨_, hl⟩ hs => .cons hl hs) fun c hc => ?_
      obtain ⟨step, v, hmem, rfl⟩ := JsonNode.exists_of_mem_itemsBelow hc
      have hrank := Nat.lt_of_le_of_lt (Json.rank_le_rankItems hmem) hn
      exact (h (n.below step v) hrank).mono fun found _ hl => ⟨found, hl⟩
    rw [n.values_itemsBelow] at hitems
    exact ReadM.Logs.map (hitems.mono fun _ _ => .items)

/-- A type of models whose readers log nothing of their own: what they log comes from the models
that the outline names. -/
def Fits (α : Type) [Parsable α] (o : Outline) : Prop :=
  ∀ (ls : List Observer) (self : Node → ReadM (Option α)) (k : Nat), o.Follows ls self k →
    ∀ (made a : α) (name : String) (n : JsonNode), n.value.rank < k →
      (Parsable.assign (Parsable.fieldReaders self made) a (name, .json n)).Logs
        fun _ => o.RecordedMember α ls name n.value

theorem logs_observe {phase : Phase} (hp : Layer.Outer phase) (hls : ∀ l ∈ ls, l.Records) (a : α) :
    ((ls.map .observer).foldlM (Parsable.observe phase) a).Logs fun b l =>
      a = b ∧ Layer.block ls phase (Parsable.glance a) = l := by
  intro log b log' hrun
  rw [Layer.foldlM_observe_read hp hls] at hrun
  cases hrun
  exact ⟨_, rfl, rfl, rfl⟩

theorem logs_assignAll (ho : o.Fits α) (hls : ∀ l ∈ ls, l.Records) (hself : o.Follows ls self k)
    {n : JsonNode} {members : List (String × Json)} (hr : ∀ m ∈ members, m.2.rank < k) (made : α) :
    (Parsable.assignAll (ls.map .observer) self
      (members.map fun m => (m.1, Node.json (n.below m.1 m.2))) made).Logs fun a =>
        o.Recorded α ls (.object members) (some a) := by
  rw [Parsable.assignAll]
  refine (logs_observe (.inl rfl) hls made).bind ?_
  rintro _ _ ⟨rfl, rfl⟩
  rw [List.foldlM_map]
  refine (ReadM.logs_foldlM (I := o.RecordedMembers α ls) .nil (fun _ _ _ _ => .cons)
    (fun m hm a => ho ls self k hself made a m.1 (n.below m.1 m.2) (hr m hm)) made).bind ?_
  intro a inner hinner
  refine (logs_observe (.inr rfl) hls a).mono ?_
  rintro _ _ ⟨rfl, rfl⟩
  exact .object made a hinner

/-- Reading a document logs what it says. -/
theorem logs_readAt (ho : o.Fits α) (hls : ∀ l ∈ ls, l.Records) {c : Reading.Context α}
    (hc : c.layers = ls.map .observer) (k : Nat) (factory : Factory α) (n : JsonNode)
    (hr : n.value.rank < k) :
    (Parsable.readAt c k factory (.json n)).Logs (o.Recorded α ls n.value) := by
  induction k generalizing factory n with
  | zero => cases hr
  | succ k ih =>
      rw [Parsable.readAt_succ]
      refine ReadM.logs_ofResult_bind fun found hfound => ?_
      rcases Node.members?_json_ok hfound with ⟨hv, rfl⟩ | ⟨members, hv, rfl⟩
      · rw [hv]
        exact ReadM.logs_pure .null
      · rw [hv] at hr ⊢
        refine ReadM.logs_ofResult_bind fun made _ => ?_
        have hranks : ∀ m ∈ members, m.2.rank < k := fun m hm =>
          Nat.lt_of_le_of_lt (Json.rank_le_rankMembers hm) (Nat.lt_of_succ_lt_succ hr)
        rw [hc]
        exact ReadM.Logs.map (logs_assignAll ho hls (ih Parsable.create) hranks made)

end Outline

end Marshal
