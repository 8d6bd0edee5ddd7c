import Mathlib.Data.List.Induction
import Marshal.Store.Watched
import Marshal.Proofs.Members
import Marshal.Proofs.Store.Lookup

/-!
Histories of stores with subscribers. Who is subscribed, in which order, and which keys the store
holds are all told by what has been done so far; so is what every subscriber has been told.
-/

namespace Marshal

namespace Watched

variable {L : Type}

/-- What may be done to a store and to its subscribers. -/
inductive Action (L : Type)
  | set (key : String) (held : Held Store)
  /-- A value is handed out for changes. -/
  | change (key : String) (f : Held Store → Option (Held Store))
  | remove (key : String)
  | clear
  | makeSendable
  | setInitialized (b : Bool)
  | setOnlyChanged (b : Bool)
  | subscribe (id : String) (subscriber : L)
  | unsubscribe (id : String)

namespace Action

/-- What comes of an action, and who is told what of it. -/
def perform : Action L → Watched L → Watched L × List (L × String)
  | set key held, w => w.set key held
  | change key f, w => (w.quietly fun s => (s.update? key f).getD s, [])
  | remove key, w => w.remove key
  | clear, w => (w.quietly Store.clear, [])
  | makeSendable, w => (w.quietly Store.makeSendable, [])
  | setInitialized b, w => (w.quietly (Store.setInitialized b), [])
  | setOnlyChanged b, w => (w.quietly (Store.setOnlyChanged b), [])
  | subscribe id subscriber, w => (w.subscribe id subscriber, [])
  | unsubscribe id, w => (w.unsubscribe id, [])

def place? (id : String) : Action L → Option (Option L)
  | subscribe i subscriber => if i = id then some (some subscriber) else none
  | unsubscribe i => if i = id then some none else none
  | _ => none

def keeps? (key : String) : Action L → Option Bool
  | set k _ => if k = key then some true else none
  | remove k => if k = key then some false else none
  | clear => some false
  | _ => none

end Action

def after (history : List (Action L)) : Watched L :=
  history.foldl (fun w a => (a.perform w).1) {}

def tellings : List (Action L) → Watched L → List (L × String)
  | [], _ => []
  | a :: actions, w => (a.perform w).2 ++ tellings actions (a.perform w).1

/-! ### What a history says -/

/-- Whom the last action about `id` has left under it. -/
def subscriber? (history : List (Action L)) (id : String) : Option L :=
  (history.reverse.findSome? (Action.place? id)).join

def holds (history : List (Action L)) (key : String) : Bool :=
  (history.reverse.findSome? (Action.keeps? key)).getD false

/-- The key that an action changes for all to know: one that is set, or one that is removed and was
there. -/
def changed? (history : List (Action L)) : Action L → Option String
  | .set key _ => some key
  | .remove key => if holds history key then some key else none
  | _ => none

/-- The id came `n` actions after the beginning, and has been there since. -/
def Came (history : List (Action L)) (id : String) (n : Nat) : Prop :=
  ∃ before subscriber since, history = before ++ .subscribe id subscriber :: since ∧
    before.length = n ∧ subscriber? before id = none ∧ ∀ a ∈ since, a.place? id ≠ some none

def moments (past : List (Action L)) : List (Action L) → List (List (Action L) × Action L)
  | [] => []
  | a :: actions => (past, a) :: moments (past ++ [a]) actions

def received [DecidableEq L] (subscriber : L) (told : List (L × String)) : List String :=
  (told.filter (·.1 = subscriber)).map Prod.snd

/-- Who is there after a history, and who has been told what. -/
structure Heard [DecidableEq L] (history : List (Action L)) : Prop where
  subscribed : ∀ id subscriber,
    (id, subscriber) ∈ (after history).subscribers ↔ subscriber? history id = some subscriber
  /-- Ids stand in the order in which they came. -/
  ordered : (after history).subscribers.keys.Pairwise fun i j =>
    ∃ m n, Came history i m ∧ Came history j n ∧ m < n
  /-- Every change is told once to each who is there, in the order of their ids, and nothing else is
  told. -/
  told : tellings history {} = (moments [] history).flatMap fun moment =>
    (changed? moment.1 moment.2).toList.flatMap fun key =>
      (after moment.1).subscribers.map fun (_, subscriber) => (subscriber, key)
  /-- One who subscribes under no id but one hears of the changes made while that id was theirs. -/
  received : ∀ id subscriber, (∀ i, .subscribe i subscriber ∈ history → i = id) →
    received subscriber (tellings history {}) = (moments [] history).filterMap fun moment =>
      if subscriber? moment.1 id = some subscriber then changed? moment.1 moment.2 else none

/-! ### One more action -/

theorem Action.eq_subscribe_of_place? {a : Action L} {id : String} {subscriber : L}
    (h : a.place? id = some (some subscriber)) : a = subscribe id subscriber := by
  cases a with
  | subscribe i s =>
      obtain ⟨rfl, hs⟩ := Option.ite_none_right_eq_some.mp h
      obtain rfl := Option.some.inj (Option.some.inj hs)
      rfl
  | unsubscribe i =>
      obtain ⟨-, hs⟩ := Option.ite_none_right_eq_some.mp h
      cases hs
  | _ => cases h

theorem after_concat (history : List (Action L)) (a : Action L) :
    after (history ++ [a]) = (a.perform (after history)).1 :=
  List.foldl_concat ..

theorem subscriber?_concat (history : List (Action L)) (a : Action L) (id : String) :
    subscriber? (history ++ [a]) id = (a.place? id).getD (subscriber? history id) := by
  rw [subscriber?, List.reverse_concat, List.findSome?_cons, subscriber?]
  cases a.place? id <;> rfl

theorem holds_concat (history : List (Action L)) (a : Action L) (key : String) :
    holds (history ++ [a]) key = (a.keeps? key).getD (holds history key) := by
  rw [holds, List.reverse_concat, List.findSome?_cons, holds]
  cases a.keeps? key <;> rfl

/-- An action does to each id what `place?` says. -/
theorem get?_perform (a : Action L) (w : Watched L) (id : String) :
    (a.perform w).1.subscribers.get? id = (a.place? id).getD (w.subscribers.get? id) := by
  cases a with
  | subscribe i subscriber =>
      show (w.subscribers.put i subscriber).get? id = _
      rw [Action.place?]
      split
      · rename_i hi
        rw [hi]
        exact Members.get?_put_self ..
      · rename_i hi
        exact Members.get?_put_of_ne (Ne.symm hi) subscriber
  | unsubscribe i =>
      show (w.subscribers.erase i).get? id = _
      rw [Action.place?, Members.get?_erase]
      simp only [eq_comm (a := id)]
      split <;> rfl
  | _ => rfl

theorem contains_update? (s : Store) (key : String) (f : Held Store → Option (Held Store))
    (k : String) : ((s.update? key f).getD s).contains k = s.contains k := by
  cases hbind : (s.find? key).bind fun e => f e.held with
  | none => rw [Store.update?_of_none s key hbind, Option.getD_none]
  | some held =>
      obtain ⟨e, he, hf⟩ := Option.bind_eq_some_iff.mp hbind
      obtain ⟨s', hs', -, hfind⟩ := Store.update?_of_some s key he hf
      rw [hs', Option.getD_some, Store.contains, Store.contains, hfind]
      split
      · rename_i hk
        rw [hk, he]
        rfl
      · rfl

theorem contains_mark (s : Store) (initialized : Option Bool) (dirty : Bool) (key : String) :
    (s.mark initialized dirty).contains key = s.contains key := by
  rw [Store.contains, Store.find?_mark, Option.isSome_map]
  rfl

/-- An action does to each key what `keeps?` says. -/
theorem contains_perform (a : Action L) (w : Watched L) (key : String) :
    (a.perform w).1.store.contains key = (a.keeps? key).getD (w.store.contains key) := by
  cases a with
  | set k held =>
      show (w.store.set k held).contains key = _
      rw [Store.contains, Store.find?_set, Action.keeps?]
      simp only [eq_comm (a := key)]
      split <;> rfl
  | change k f => exact contains_update? w.store k f key
  | remove k =>
      show (w.store.remove k).contains key = _
      rw [Store.contains, Store.find?_remove, Action.keeps?]
      simp only [eq_comm (a := key)]
      split <;> rfl
  | clear =>
      show w.store.clear.contains key = false
      rw [Store.contains, Store.find?_clear]
      rfl
  | makeSendable => exact contains_mark w.store none true key
  | setInitialized b => exact contains_mark w.store (some b) (!b) key
  | setOnlyChanged b =>
      obtain ⟨⟨i, o, es⟩, subscribers⟩ := w
      rfl
  | subscribe | unsubscribe => rfl

/-! ### Who is there -/

theorem get?_after (history : List (Action L)) (id : String) :
    (after history).subscribers.get? id = subscriber? history id := by
  induction history using List.reverseRecOn with
  | nil => rfl
  | append_singleton history a ih =>
      rw [after_concat, get?_perform, subscriber?_concat, ih]

theorem contains_after (history : List (Action L)) (key : String) :
    (after history).store.contains key = holds history key := by
  induction history using List.reverseRecOn with
  | nil => rfl
  | append_singleton history a ih =>
      rw [after_concat, contains_perform, holds_concat, ih]

theorem Came.lt_length {history : List (Action L)} {id : String} {n : Nat}
    (h : Came history id n) : n < history.length := by
  obtain ⟨before, subscriber, since, rfl, rfl, -⟩ := h
  simp

/-- An id that has come stays if it is not unsubscribed. -/
theorem Came.concat {history : List (Action L)} {id : String} {n : Nat}
    (h : Came history id n) {a : Action L} (ha : a.place? id ≠ some none) :
    Came (history ++ [a]) id n := by
  obtain ⟨before, subscriber, since, rfl, hn, hfree, hsince⟩ := h
  refine ⟨before, subscriber, since ++ [a], by simp, hn, hfree, ?_⟩
  rw [List.forall_mem_append]
  exact ⟨hsince, List.forall_mem_singleton.mpr ha⟩

/-- Somebody is there under an id from when it came until it is unsubscribed. -/
theorem subscriber?_ne_none {before since : List (Action L)} {id : String} {subscriber : L}
    (h : ∀ a ∈ since, a.place? id ≠ some none) :
    subscriber? (before ++ .subscribe id subscriber :: since) id ≠ none := by
  induction since using List.reverseRecOn with
  | nil => simp [subscriber?_concat, Action.place?]
  | append_singleton since a ih =>
      obtain ⟨hsince, ha⟩ := List.forall_mem_append.mp h
      have hassoc : before ++ .subscribe id subscriber :: (since ++ [a]) =
          (before ++ .subscribe id subscriber :: since) ++ [a] := by simp
      rw [hassoc, subscriber?_concat]
      cases hplace : a.place? id with
      | none => exact ih hsince
      | some left =>
          rintro (rfl : left = none)
          exact List.forall_mem_singleton.mp ha hplace

/-- An id has come at one time only. -/
theorem Came.unique {history : List (Action L)} {id : String} {m n : Nat}
    (hm : Came history id m) (hn : Came history id n) : m = n := by
  -- If it came at `m` and then again at `n`, it was still there before it came again.
  have hle {m n : Nat} (hm : Came history id m) (hn : Came history id n) : n ≤ m := by
    obtain ⟨before, s, since, rfl, rfl, -, hsince⟩ := hm
    obtain ⟨before', s', since', heq, rfl, hfree, -⟩ := hn
    by_contra hlt
    rcases List.append_eq_append_iff.mp heq with ⟨between, rfl, hrest⟩ | ⟨between, rfl, -⟩
    · cases between with
      | nil => simp at hlt
      | cons a between =>
          obtain ⟨rfl, rfl⟩ := List.cons.inj hrest
          refine subscriber?_ne_none (fun b hb => hsince b ?_) hfree
          exact List.mem_append_left _ hb
    · simp at hlt
  exact Nat.le_antisymm (hle hn hm) (hle hm hn)

theorem came_concat_of_free {history : List (Action L)} {id : String}
    (h : subscriber? history id = none) (subscriber : L) :
    Came (history ++ [.subscribe id subscriber]) id history.length :=
  ⟨history, subscriber, [], rfl, rfl, h, List.forall_mem_nil _⟩

/-- Where somebody is, the id has come. -/
theorem exists_came {history : List (Action L)} {id : String}
    (h : subscriber? history id ≠ none) : ∃ n, Came history id n := by
  induction history using List.reverseRecOn with
  | nil => exact absurd rfl h
  | append_singleton history a ih =>
      have hstays : a.place? id ≠ some none := by
        intro hplace
        rw [subscriber?_concat, hplace] at h
        exact h rfl
      by_cases hfree : subscriber? history id = none
      · cases hplace : a.place? id with
        | none =>
            rw [subscriber?_concat, hplace, Option.getD_none] at h
            exact absurd hfree h
        | some left =>
            obtain ⟨s, rfl⟩ := Option.ne_none_iff_exists'.mp fun hleft => hstays (hleft ▸ hplace)
            rw [Action.eq_subscribe_of_place? hplace]
            exact ⟨history.length, came_concat_of_free hfree s⟩
      · obtain ⟨n, hn⟩ := ih hfree
        exact ⟨n, hn.concat hstays⟩

/-- Ids stand in the order in which they came. -/
theorem pairwise_keys_after (history : List (Action L)) :
    (after history).subscribers.keys.Pairwise fun i j =>
      ∃ m n, Came history i m ∧ Came history j n ∧ m < n := by
  induction history using List.reverseRecOn with
  | nil => exact .nil
  | append_singleton history a ih =>
      have hkept {i j : String} (hi : a.place? i ≠ some none) (hj : a.place? j ≠ some none) :
          (∃ m n, Came history i m ∧ Came history j n ∧ m < n) →
            ∃ m n, Came (history ++ [a]) i m ∧ Came (history ++ [a]) j n ∧ m < n := by
        rintro ⟨m, n, hm, hn, hlt⟩
        exact ⟨m, n, hm.concat hi, hn.concat hj, hlt⟩
      rw [after_concat]
      cases a with
      | subscribe id subscriber =>
          have hstays (i : String) : (Action.subscribe id subscriber).place? i ≠ some none := by
            rw [Action.place?]
            split <;> simp
          show ((after history).subscribers.put id subscriber).keys.Pairwise _
          rw [Members.keys_put]
          split
          · exact ih.imp (hkept (hstays _) (hstays _))
          · rename_i hid
            have hfree : subscriber? history id = none := by
              rw [← get?_after, Members.get?_eq_none_iff]
              exact hid
            refine List.pairwise_append.mpr
              ⟨ih.imp (hkept (hstays _) (hstays _)), List.pairwise_singleton .., ?_⟩
            intro i hi j hj
            obtain rfl := List.mem_singleton.mp hj
            have hthere : subscriber? history i ≠ none := by
              rw [← get?_after, Ne, Members.get?_eq_none_iff, not_not]
              exact hi
            obtain ⟨n, hn⟩ := exists_came hthere
            exact ⟨n, history.length, hn.concat (hstays i),
              came_concat_of_free hfree subscriber, hn.lt_length⟩
      | unsubscribe id =>
          show ((after history).subscribers.erase id).keys.Pairwise _
          have hother {i : String} (hi : i ∈ (after history).subscribers.keys.filter (· != id)) :
              (Action.unsubscribe id : Action L).place? i ≠ some none := by
            have hne : i ≠ id := by simpa using (List.mem_filter.mp hi).2
            simp [Action.place?, hne.symm]
          rw [Members.keys_erase]
          exact (ih.filter _).imp_of_mem fun hi hj => hkept (hother hi) (hother hj)
      | _ => exact ih.imp (hkept (by simp [Action.place?]) (by simp [Action.place?]))

theorem nodup_keys_after (history : List (Action L)) :
    (after history).subscribers.keys.Nodup := by
  refine (pairwise_keys_after history).imp ?_
  rintro i j ⟨m, n, hm, hn, hlt⟩ rfl
  exact Nat.ne_of_lt hlt (hm.unique hn)

theorem mem_subscribers_after_iff {history : List (Action L)} {id : String} {subscriber : L} :
    (id, subscriber) ∈ (after history).subscribers ↔
      subscriber? history id = some subscriber := by
  rw [← get?_after, Members.get?_eq_some_iff (nodup_keys_after history)]

/-! ### What is told -/

/-- An action tells the key that it changes, if any, to all who are there. -/
theorem told_perform (past : List (Action L)) (a : Action L) :
    (a.perform (after past)).2 = (changed? past a).toList.flatMap (after past).told := by
  cases a with
  | set key held =>
      show (after past).told key = [key].flatMap (after past).told
      rw [List.flatMap_singleton]
  | remove key =>
      show (if (after past).store.contains key then (after past).told key else []) = _
      rw [contains_after, changed?]
      split <;> simp
  | _ => rfl

theorem tellings_after (past actions : List (Action L)) :
    tellings actions (after past) = (moments past actions).flatMap fun moment =>
      (changed? moment.1 moment.2).toList.flatMap (after moment.1).told := by
  induction actions generalizing past with
  | nil => rfl
  | cons a actions ih =>
      rw [tellings, told_perform, ← after_concat, ih, moments, List.flatMap_cons]

/-- Nothing of what is done before a moment is not of the history. -/
theorem mem_of_mem_moments {past actions : List (Action L)} {moment : List (Action L) × Action L}
    (h : moment ∈ moments past actions) {a : Action L} (ha : a ∈ moment.1) :
    a ∈ past ++ actions := by
  induction actions generalizing past with
  | nil => cases h
  | cons b actions ih =>
      rcases List.mem_cons.mp h with rfl | h
      · exact List.mem_append_left _ ha
      · simpa using ih h

theorem mem_of_subscriber? {history : List (Action L)} {id : String} {subscriber : L}
    (h : subscriber? history id = some subscriber) : .subscribe id subscriber ∈ history := by
  obtain ⟨a, ha, hplace⟩ := List.exists_of_findSome?_eq_some (Option.join_eq_some_iff.mp h)
  rw [← Action.eq_subscribe_of_place? hplace]
  exact List.mem_reverse.mp ha

section

variable [DecidableEq L]

/-- What a change tells to one who subscribes under one id only. -/
theorem received_told {past : List (Action L)} {id : String} {subscriber : L}
    (hid : ∀ i, .subscribe i subscriber ∈ past → i = id) (key : String) :
    received subscriber ((after past).told key) =
      if subscriber? past id = some subscriber then [key] else [] := by
  have hsole (p : String × L) (hp : p ∈ (after past).subscribers) :
      p.2 = subscriber ↔ p = (id, subscriber) := by
    constructor
    · rintro rfl
      exact Prod.ext (hid p.1 (mem_of_subscriber? (mem_subscribers_after_iff.mp hp))) rfl
    · rintro rfl
      rfl
  have hnodup : (after past).subscribers.Nodup := (nodup_keys_after past).of_map
  have hfilter : (after past).subscribers.filter (fun p => p.2 = subscriber) =
      (after past).subscribers.filter (· = (id, subscriber)) :=
    List.filter_congr fun p hp => decide_eq_decide.mpr (hsole p hp)
  rw [received, told, List.filter_map, List.map_map]
  show ((after past).subscribers.filter fun p => p.2 = subscriber).map (fun _ => key) = _
  rw [hfilter, List.filter_eq, hnodup.count, List.map_replicate]
  simp only [mem_subscribers_after_iff]
  split <;> rfl

theorem received_tellings {history : List (Action L)} {id : String} {subscriber : L}
    (hid : ∀ i, .subscribe i subscriber ∈ history → i = id) :
    received subscriber (tellings history {}) = (moments [] history).filterMap fun moment =>
      if subscriber? moment.1 id = some subscriber then changed? moment.1 moment.2 else none := by
  have htold : tellings history {} = _ := tellings_after [] history
  rw [htold, received, List.filter_flatMap, List.map_flatMap, List.filterMap_eq_flatMap_toList]
  refine List.flatMap_congr fun moment hmoment => ?_
  have hpast (i : String) (hi : .subscribe i subscriber ∈ moment.1) : i = id :=
    hid i (mem_of_mem_moments hmoment hi)
  cases changed? moment.1 moment.2 with
  | none => simp
  | some key =>
      rw [Option.toList_some, List.flatMap_singleton]
      refine (received_told hpast key).trans ?_
      split <;> rfl

/-- The history of a store tells who is subscribed and who has been told what. -/
theorem heard_of_history (history : List (Action L)) : Heard history where
  subscribed := fun _ _ => mem_subscribers_after_iff
  ordered := pairwise_keys_after history
  told := tellings_after [] history
  received := fun _ _ => received_tellings

end

/-- An id is taken over, given up and taken again; two removals find nothing. -/
def comings : List (Action String) := [
  .subscribe "a" "first", .set "x" .null, .subscribe "b" "second", .subscribe "a" "third",
  .remove "y", .remove "x", .unsubscribe "a", .set "z" (.strings ["u"]), .subscribe "a" "first",
  .clear, .remove "z", .set "x" .null]

theorem heard_of_history_comings :
    received "first" (tellings comings {}) = ["x", "x"] ∧
      tellings comings {} = [("first", "x"), ("third", "x"), ("second", "x"), ("second", "z"),
        ("second", "x"), ("first", "x")] := by
  have hid (i : String) (hi : .subscribe i "first" ∈ comings) : i = "a" := by
    simpa [comings] using hi
  have hheard : Heard comings := heard_of_history comings
  exact ⟨hheard.received "a" "first" hid, hheard.told⟩

end Watched

end Marshal
