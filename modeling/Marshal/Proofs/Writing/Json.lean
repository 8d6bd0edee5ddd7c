import Mathlib.Data.List.Forall2
import Marshal.Proofs.Members
import Marshal.Proofs.Writing.Run

/-!
What writing does to a JSON document. A step within an object adds members to it; a whole model or
collection is one value, put where the document has room for it.
-/

namespace Marshal

theorem exists_forall₂ {α β : Type} {R : α → β → Prop} {l : List α} (h : ∀ a ∈ l, ∃ b, R a b) :
    ∃ bs, List.Forall₂ R l bs := by
  induction l with
  | nil => exact ⟨[], .nil⟩
  | cons a l ih =>
      obtain ⟨b, hb⟩ := h a (by simp)
      obtain ⟨bs, hbs⟩ := ih fun a ha => h a (by simp [ha])
      exact ⟨b :: bs, .cons hb hbs⟩

theorem exists_rel {α β : Type} {R : α → β → Prop} {a : Option α} (h : ∀ x ∈ a, ∃ y, R x y) :
    ∃ b, Option.Rel R a b := by
  cases a with
  | none => exact ⟨none, .none⟩
  | some x =>
      obtain ⟨y, hy⟩ := h x rfl
      exact ⟨some y, .some hy⟩

theorem rel_mono {α β : Type} {R S : α → β → Prop} {a : Option α} {b : Option β}
    (h : Option.Rel R a b) (hRS : ∀ x y, R x y → S x y) : Option.Rel S a b := by
  cases h with
  | none => exact .none
  | some h => exact .some (hRS _ _ h)

theorem forall_of_rel {α β : Type} {R : α → β → Prop} {P : β → Prop} {a : Option α} {b : Option β}
    (h : Option.Rel R a b) (hP : ∀ x y, R x y → P y) : ∀ y ∈ b, P y := by
  cases h with
  | none => exact fun _ hy => absurd hy (Option.not_mem_none _)
  | some h =>
      rintro _ ⟨⟩
      exact hP _ _ h

namespace JsonDraft

def inObject (key : Option String) (members : Members Json) (d : JsonDraft) : JsonDraft :=
  { d with stack := .object key members :: d.stack }

def inArray (key : Option String) (items : List Json) (d : JsonDraft) : JsonDraft :=
  { d with stack := .array key items :: d.stack }

@[simp] theorem put_inObject (key : Option String) (members : Members Json) (d : JsonDraft)
    (name : String) (v : Json) :
    (d.inObject key members).put (some name) v = (.ok (), d.inObject key (members.put name v)) :=
  rfl

@[simp] theorem put_inArray (key name : Option String) (items : List Json) (d : JsonDraft)
    (v : Json) : (d.inArray key items).put name v = (.ok (), d.inArray key (items ++ [v])) := rfl

@[simp] theorem putSome_inObject (key : Option String) (members : Members Json) (d : JsonDraft)
    (name : String) (v : Option Json) :
    (d.inObject key members).putSome (some name) v =
      (.ok (), d.inObject key (members.putAll (v.toList.map (name, ·)))) := by
  cases v <;> rfl

end JsonDraft

namespace AnyDraft

theorem call_json (c : Call) (d : JsonDraft) :
    Draft.call c (json d) = ((JsonDraft.call c d).1, json (JsonDraft.call c d).2) := rfl

theorem run_json (s : Script) (d : JsonDraft) :
    Draft.run s (json d) = ((Draft.run s d).1, json (Draft.run s d).2) := by
  induction s generalizing d with
  | nil => rfl
  | cons r s ih =>
      cases r with
      | error e => rfl
      | ok c =>
          have hcall : Draft.call c d = JsonDraft.call c d := rfl
          rw [Draft.run, Draft.run, call_json, hcall]
          rcases JsonDraft.call c d with ⟨_ | _, d'⟩
          · rfl
          · exact ih d'

@[simp] theorem startObject_json (key : Option String) (subject : Subject) (d : JsonDraft) :
    Draft.call (.startObject key subject) (json d) = (.ok (), json (d.inObject key [])) := rfl

@[simp] theorem endObject_json (key : Option String) (members : Members Json) (d : JsonDraft) :
    Draft.call .endObject (json (d.inObject key members)) =
      ((d.put key (.object members)).1, json (d.put key (.object members)).2) := rfl

@[simp] theorem startCollection_json (key : Option String) (d : JsonDraft) :
    Draft.call (.startCollection key) (json d) = (.ok (), json (d.inArray key [])) := rfl

@[simp] theorem endCollection_json (key : Option String) (items : List Json) (d : JsonDraft) :
    Draft.call .endCollection (json (d.inArray key items)) =
      ((d.put key (.array items)).1, json (d.put key (.array items)).2) := rfl

end AnyDraft

/-! ### Calls in a row -/

namespace Script

/-- Within an object, the calls all succeed and add `new`. -/
def Adds (s : Script) (new : Members Json) : Prop :=
  ∀ (d : JsonDraft) (key : Option String) (members : Members Json),
    Draft.run s (AnyDraft.json (d.inObject key members)) =
      (.ok (), .json (d.inObject key (members.putAll new)))

theorem adds_nil : Adds [] [] := fun _ _ _ => rfl

theorem Adds.append {a b : Script} {new new' : Members Json} (ha : a.Adds new) (hb : b.Adds new') :
    Adds (a ++ b) (new ++ new') := by
  intro d key members
  rw [Draft.run_append, ha, Members.putAll_append]
  exact hb d key _

theorem adds_call {c : Call} {name : String} {v : Option Json}
    (h : ∀ d : JsonDraft, d.call c = d.putSome (some name) v) :
    Adds [.ok c] (v.toList.map (name, ·)) := by
  intro d key members
  rw [Draft.run, AnyDraft.call_json, h, JsonDraft.putSome_inObject]
  rfl

def Puts (r : Result Call) (v : Json) : Prop :=
  ∃ c, r = .ok c ∧ ∀ d : JsonDraft, d.call c = d.put none v

theorem run_inArray {s : Script} {vs : List Json} (h : List.Forall₂ Puts s vs) (d : JsonDraft)
    (key : Option String) (items : List Json) (rest : Script) :
    Draft.run (s ++ rest) (AnyDraft.json (d.inArray key items)) =
      Draft.run rest (AnyDraft.json (d.inArray key (items ++ vs))) := by
  induction h generalizing items with
  | nil => simp
  | cons hv _ ih =>
      obtain ⟨c, rfl, hc⟩ := hv
      rw [List.cons_append, Draft.run, AnyDraft.call_json, hc, JsonDraft.put_inArray]
      exact (ih _).trans (by rw [List.append_assoc, List.singleton_append])

/-- A collection of values that have no names. -/
theorem adds_collection {s : Script} {vs : List Json} (h : List.Forall₂ Puts s vs) (name : String) :
    Adds (.ok (.startCollection (some name)) :: s ++ [.ok .endCollection]) [(name, .array vs)] := by
  intro d key members
  rw [List.cons_append, Draft.run, AnyDraft.startCollection_json]
  refine (run_inArray h _ (some name) [] _).trans ?_
  rw [List.nil_append, Draft.run, AnyDraft.endCollection_json, JsonDraft.put_inObject]
  rfl

end Script

section Json

variable {α β : Type} {layers : List Layer}

/-- Within an object that has `members` so far, the step ends well, turns model `a` into `b` and
adds `new`. -/
def Writing.AddsTo (layers : List Layer) (members : Members Json) (w : Writing α Unit) (a b : α)
    (new : Members Json) : Prop :=
  ∀ (d : JsonDraft) (key : Option String) (log : Log),
    w.runAt a ⟨.json (d.inObject key members), layers, log⟩ =
      ((.ok (), b), ⟨.json (d.inObject key (members.putAll new)), layers, log⟩)

def Writing.Adds (layers : List Layer) (w : Writing α Unit) (a b : α) (new : Members Json) : Prop :=
  ∀ members, AddsTo layers members w a b new

/-- Where there is room under `key`, the step ends well, gives `b` and puts `v` there. -/
def WriteM.Puts (layers : List Layer) (act : WriteM (Result Unit × β)) (key : Option String)
    (b : β) (v : Json) : Prop :=
  ∀ (d d' : JsonDraft) (log : Log), d.put key v = (.ok (), d') →
    act.run ⟨.json d, layers, log⟩ = ((.ok (), b), ⟨.json d', layers, log⟩)

namespace Writing

open WriteM

theorem adds_pure (a : α) : Adds layers (pure ()) a a [] := fun _ _ _ _ => rfl

theorem Adds.get {f : α → Writing α Unit} {a b : α} {new : Members Json}
    (h : Adds layers (f a) a b new) : Adds layers (get >>= f) a b new := fun members d key log =>
  (runAt_bind_ok (runAt_get ..) f).trans (h members d key log)

theorem AddsTo.bind {w w' : Writing α Unit} {a b c : α} {members new new' : Members Json}
    (h : AddsTo layers members w a b new) (h' : AddsTo layers (members.putAll new) w' b c new') :
    AddsTo layers members (w >>= fun _ => w') a c (new ++ new') := by
  intro d key log
  rw [runAt_bind_ok (h d key log), Members.putAll_append]
  exact h' d key log

theorem Adds.bind {w w' : Writing α Unit} {a b c : α} {new new' : Members Json}
    (h : Adds layers w a b new) (h' : Adds layers w' b c new') :
    Adds layers (w >>= fun _ => w') a c (new ++ new') :=
  fun members => (h members).bind (h' _)

theorem adds_script {s : Script} {new : Members Json} (h : s.Adds new) (a : α) :
    Adds layers (script s) a a new := by
  intro members d key log
  rw [runAt_script, h]

theorem adds_call {c : Call} {name : String} {v : Option Json}
    (h : ∀ d : JsonDraft, d.call c = d.putSome (some name) v) (a : α) :
    Adds layers (call c) a a (v.toList.map (name, ·)) := by
  intro members d key log
  rw [runAt_call, AnyDraft.call_json, h, JsonDraft.putSome_inObject]

theorem adds_component {act : WriteM (Result Unit × β)} {name : String} {b : β} {v : Json}
    (h : Puts layers act (some name) b v) (back : β → α → α) (a : α) :
    Adds layers (component act back) a (back b a) [(name, v)] := by
  intro members d key log
  rw [runAt_component, h _ _ log (JsonDraft.put_inObject ..)]
  rfl

theorem puts_object (hq : Layer.Quiet layers) (key : Option String) (subject : Subject)
    (glance : α → Glance) (mark : Bool → α → α) {fields : Writing α Unit} {a b : α}
    {new : Members Json}
    (h : AddsTo layers [] fields (mark (Layer.seen layers .before (glance a)).onlyChanged a) b
      new) :
    Puts layers ((object key subject glance mark fields).exec a) key
      (mark (Layer.seen layers .after (glance b)).onlyChanged b)
      (.object (Members.ofPairs new)) := by
  intro d d' log hput
  -- The object is complete only at its end, and goes then where there was room for it.
  have hend : Draft.call .endObject (AnyDraft.json (d.inObject key (Members.ofPairs new))) =
      (.ok (), .json d') := by
    rw [AnyDraft.endObject_json, hput]
  exact runAt_object_ok (o := ⟨.json d, layers, log⟩) hq key subject glance mark
    (AnyDraft.startObject_json key subject d) (h d key log) rfl hend

end Writing

namespace Outgoing

open WriteM

/-- Elements that are written one value each. A result is what comes back of an element, and its
value. -/
theorem writeEach_inArray {os : List (Outgoing α)} {rs : List (α × Json)}
    (h : List.Forall₂ (fun o r => Puts layers (o.write none) none r.1 r.2) os rs)
    (d : JsonDraft) (key : Option String) (items : List Json) (log : Log) :
    (writeEach os).run ⟨.json (d.inArray key items), layers, log⟩ =
      ((.ok (), rs.map Prod.fst),
        ⟨.json (d.inArray key (items ++ rs.map Prod.snd)), layers, log⟩) := by
  induction h generalizing items with
  | nil =>
      rw [List.map_nil, List.map_nil, List.append_nil]
      rfl
  | @cons o r os rs ho _ ih =>
      have hrun := ho (d.inArray key items) _ log (JsonDraft.put_inArray ..)
      rw [writeEach, run_bind_of hrun]
      refine (run_bind_of (ih (items ++ [r.2])) _).trans ?_
      rw [List.append_assoc]
      rfl

theorem puts_writeList {os : List (Outgoing α)} {rs : List (α × Json)}
    (h : List.Forall₂ (fun o r => Puts layers (o.write none) none r.1 r.2) os rs)
    (key : Option String) :
    Puts layers (writeList key os) key (rs.map Prod.fst) (.array (rs.map Prod.snd)) := by
  intro d d' log hput
  have hstart : (Output.call (.startCollection key)).run ⟨.json d, layers, log⟩ =
      (.ok (), ⟨.json (d.inArray key []), layers, log⟩) := by
    rw [Output.run_call, AnyDraft.startCollection_json]
  have hend : (Output.call .endCollection).run
      ⟨.json (d.inArray key (rs.map Prod.snd)), layers, log⟩ =
      (.ok (), ⟨.json d', layers, log⟩) := by
    rw [Output.run_call, AnyDraft.endCollection_json, hput]
  rw [writeList, run_bind_of hstart]
  refine (run_bind_of (writeEach_inArray h d key [] log) _).trans ?_
  exact run_bind_of hend fun r => pure (r, rs.map Prod.fst)

/-- A model that takes no marks comes back as it was. -/
theorem puts_ofUnmarked {a : α} {w : Option String → Writing Unit Unit} {key : Option String}
    {v : Json} (h : Puts layers ((w key).exec ()) key () v) :
    Puts layers ((ofUnmarked a w).write key) key a v := by
  intro d d' log hput
  exact run_bind_of (h d d' log hput) fun r => pure (r.1, a)

/-- A list of models that come back as they were. -/
theorem puts_writeAll [Writable α] {as : List α} {json : α → Json}
    (h : ∀ a ∈ as, Puts layers ((Writable.outgoing a).write none) none a (json a))
    (key : Option String) :
    Puts layers (writeList key (as.map Writable.outgoing)) key as (.array (as.map json)) := by
  have hputs : List.Forall₂ (fun o r => Puts layers (Outgoing.write o none) none r.1 r.2)
      (as.map Writable.outgoing) (as.map fun a => (a, json a)) := by
    rw [List.forall₂_map_left_iff, List.forall₂_map_right_iff, List.forall₂_same]
    exact h
  simpa [Function.comp_def] using puts_writeList hputs key

end Outgoing

end Json

end Marshal
