import Marshal.Proofs.Store.Path
import Marshal.Proofs.Store.Queries

/-!
Histories of stores. Next to a store stands the record of what last touched every entry at every
place below it, of the order in which the keys of every store came, and of what was last said to
every store. An operation is described twice: by what it does to the store, and by which entries it
touches and where the others were before. The marks and the flags of the store turn out to be
functions of the record.
-/

namespace Marshal

namespace Store

/-- What is said to a store. -/
structure Flags where
  complete : Bool
  onlyChanged : Bool
  deriving DecidableEq

def flags (s : Store) : Flags := ⟨s.initialized, s.onlyChanged⟩

inductive Touch
  /-- It was set, in a store that was complete or not. -/
  | set (complete : Bool)
  /-- It was handed out for changes, in a store that was complete. -/
  | changed
  | sendable
  /-- The store, or one that reaches it, was said to be complete or not. -/
  | initialized (b : Bool)
  deriving DecidableEq

def Touch.mark : Touch → Bool
  | set complete => complete
  | changed => true
  | sendable => true
  | initialized b => !b

/-- A store and its history, as far as it matters. -/
structure Recorded where
  store : Store
  /-- What last touched the entry of a key of the store at the end of a path. -/
  last : Path → String → Option Touch
  /-- The keys of that store in the order in which they came. -/
  order : Path → List String
  /-- What that store was told last. -/
  flags : Path → Flags

namespace Recorded

def new : Recorded := ⟨.empty, fun _ _ => none, fun _ => [], fun _ => ⟨true, false⟩⟩

def complete (r : Recorded) (path : Path) : Bool :=
  (r.flags path).complete

end Recorded

/-- What the value of an entry becomes while it is handed out. -/
inductive Change
  | scalar (k : Kind) (v : k.Carrier)
  | strings (l : List String)
  | model (r : Recorded)
  /-- For every place of the new list, one of the old models or another one. -/
  | models (pick : (n : Nat) → List (Fin n ⊕ Recorded))

namespace Change

def fits : Change → Held Store → Bool
  | scalar k _, h => (h.scalar? k).isSome
  | strings _, h => h.strings?.isSome
  | model _, h => h.model?.isSome
  | models _, h => h.models?.isSome

/-- The new value; one of another type is not handed out. -/
def act? : Change → Held Store → Option (Held Store)
  | scalar k v, h => h.mapScalar? k fun _ => v
  | strings l, h => h.mapStrings? fun _ => l
  | model r, h => h.mapModel? fun _ => r.store
  | models pick, h => h.mapModels? fun ms => (pick ms.length).map (Sum.elim (ms[·]) (·.store))

end Change

/-- What may be done to a store, and to the stores below it. -/
inductive Op
  | set (key : String) (held : Held Recorded)
  | change (key : String) (c : Change)
  | remove (key : String)
  | clear
  | makeSendable
  | setInitialized (b : Bool)
  /-- For the store at the end of a path; nobody on the way has to hand anything out. -/
  | setOnlyChanged (path : Path) (b : Bool)
  /-- An entry is handed out, and something is done to the model that the hop leads to. -/
  | inside (hop : Hop) (op : Op)

def Hop.fits (hop : Hop) (h : Held Store) : Bool :=
  match hop.2 with
  | none => h.model?.isSome
  | some _ => h.models?.isSome

def holds (s : Store) (key : String) (fits : Held Store → Bool) : Bool :=
  (s.find? key).any (fits ·.held)

/-- Where a store was before an operation: below the same root, or below a model of the caller. -/
inductive Origin
  | kept (path : Path)
  | brought (r : Recorded) (path : Path)

namespace Origin

def under (hop : Hop) : Origin → Origin
  | kept path => kept (hop :: path)
  | brought r path => brought r path

def store? (s : Store) : Origin → Option Store
  | kept path => below? path s
  | brought r path => below? path r.store

def last (r : Recorded) : Origin → String → Option Touch
  | kept path => r.last path
  | brought r path => r.last path

def order (r : Recorded) : Origin → List String
  | kept path => r.order path
  | brought r path => r.order path

def flags (r : Recorded) : Origin → Flags
  | kept path => r.flags path
  | brought r path => r.flags path

end Origin

@[simp] theorem Origin.store?_kept (s : Store) (path : Path) :
    (kept path).store? s = below? path s := rfl

@[simp] theorem Origin.store?_brought (s : Store) (r : Recorded) (path : Path) :
    (brought r path).store? s = below? path r.store := rfl

def Change.origin : Change → Held Store → Hop → Path → Origin
  | model r, h, (key, none), path =>
    if h.model?.isSome then .brought r path else .kept ((key, none) :: path)
  | models pick, h, (key, some i), path =>
    match h.models?.bind fun ms => (pick ms.length)[i]?.map (Sum.map Fin.val id) with
    | some (.inl j) => .kept ((key, some j) :: path)
    | some (.inr r) => .brought r path
    | none => .kept ((key, some i) :: path)
  | _, _, hop, path => .kept (hop :: path)

namespace Op

def run : Op → Store → Store
  | set key held, s => s.set key (held.map (·.store))
  | change key c, s => (s.update? key c.act?).getD s
  | remove key, s => s.remove key
  | clear, s => s.clear
  | makeSendable, s => s.makeSendable
  | setInitialized b, s => s.setInitialized b
  | setOnlyChanged path b, s => s.setOnlyChangedBelow b path
  | inside hop op, s => (s.update? hop.1 (Held.mapChild? hop.2 fun m => op.run m)).getD s

/-- How the operation touches the entry of a key of the store at the end of a path, if it does,
where `complete` says which stores were complete before. -/
def touch : Op → Store → (Path → Bool) → Path → String → Option Touch
  | set key _, _, complete, [], k => if k = key then some (.set (complete [])) else none
  | change key c, s, complete, [], k =>
    if k = key ∧ complete [] ∧ s.holds key c.fits then some .changed else none
  | makeSendable, s, _, path, _ => if linksTo path s then some .sendable else none
  | setInitialized b, s, _, path, _ => if linksTo path s then some (.initialized b) else none
  | inside hop _, s, complete, [], k =>
    if k = hop.1 ∧ complete [] ∧ s.holds hop.1 hop.fits then some .changed else none
  | inside hop op, s, complete, hop' :: path, k =>
    if hop' = hop then (s.child? hop).bind (op.touch · (fun p => complete (hop :: p)) path k)
    else none
  | _, _, _, _, _ => none

/-- Where the store at the end of a path was before the operation. -/
def origin : Op → Store → Path → Origin
  | set key held, _, (k, i) :: path =>
    match (if k = key then held.child? i else none) with
    | some r => .brought r path
    | none => .kept ((k, i) :: path)
  | change key c, s, hop :: path =>
    match (if hop.1 = key then s.find? key else none) with
    | some e => c.origin e.held hop path
    | none => .kept (hop :: path)
  | inside hop op, s, hop' :: path =>
    match (if hop' = hop then s.child? hop else none) with
    | some m => (op.origin m path).under hop
    | none => .kept (hop' :: path)
  | _, _, path => .kept path

/-- The keys of the store at the end of a path, as they come to be from those before. A key that is
set anew keeps its place. -/
def arrange : Op → Path → List String → List String
  | set key _, [], keys => if key ∈ keys then keys else keys ++ [key]
  | remove key, [], keys => keys.filter (· != key)
  | clear, [], _ => []
  | inside hop op, hop' :: path, keys => if hop' = hop then op.arrange path keys else keys
  | _, _, keys => keys

def say : Op → Store → Path → Flags → Flags
  | setInitialized b, s, path, f => if linksTo path s then { f with complete := b } else f
  | setOnlyChanged target b, _, path, f => if path = target then { f with onlyChanged := b } else f
  | inside hop op, s, hop' :: path, f =>
    match (if hop' = hop then s.child? hop else none) with
    | some m => op.say m path f
    | none => f
  | _, _, _, f => f

/-- The models that the caller brings along. -/
def Brings : Op → Recorded → Prop
  | set _ held, r => r ∈ held.nested
  | change _ (.model r'), r => r = r'
  | change _ (.models pick), r => ∃ n, Sum.inr r ∈ pick n
  | inside _ op, r => op.Brings r
  | _, _ => False

end Op

def Recorded.step (r : Recorded) (op : Op) : Recorded where
  store := op.run r.store
  last path key :=
    (op.touch r.store r.complete path key).or ((op.origin r.store path).last r key)
  order path := op.arrange path ((op.origin r.store path).order r)
  flags path := op.say r.store path ((op.origin r.store path).flags r)

/-- What comes of a new store after any number of operations; models that are brought along have a
history of their own. -/
inductive Reachable : Recorded → Prop
  | new : Reachable .new
  | step {r : Recorded} (h : Reachable r) (op : Op) (hop : ∀ r', op.Brings r' → Reachable r') :
    Reachable (r.step op)

/-! ### What a store is told -/

section

variable (s : Store)

@[simp] theorem flags_set (key : String) (held : Held Store) :
    (s.set key held).flags = s.flags := by
  cases s
  rfl

@[simp] theorem flags_remove (key : String) : (s.remove key).flags = s.flags := by
  cases s
  rfl

@[simp] theorem flags_clear : s.clear.flags = s.flags := by
  cases s
  rfl

@[simp] theorem flags_restore (key : String) (f : Held Store → Held Store) :
    (s.restore key f).flags = s.flags := by
  cases s
  rfl

@[simp] theorem flags_setOnlyChanged (b : Bool) :
    (s.setOnlyChanged b).flags = { s.flags with onlyChanged := b } := by
  cases s
  rfl

@[simp] theorem flags_mark (initialized : Option Bool) (dirty : Bool) :
    (s.mark initialized dirty).flags =
      { s.flags with complete := initialized.getD s.flags.complete } := by
  cases s
  rfl

@[simp] theorem flags_update (key : String) (f : Held Store → Option (Held Store)) :
    ((s.update? key f).getD s).flags = s.flags := by
  cases h : s.update? key f with
  | none => rfl
  | some s' =>
      obtain ⟨hcomplete, honly⟩ := flags_of_update? h
      rw [Option.getD_some, flags, flags, hcomplete, honly]

end

/-- Right about the completeness of every store below `s`. -/
def Knows (complete : Path → Bool) (s : Store) : Prop :=
  ∀ path m, below? path s = some m → complete path = m.initialized

theorem Knows.self {complete : Path → Bool} {s : Store} (h : Knows complete s) :
    complete [] = s.initialized :=
  h [] s rfl

theorem Knows.child {complete : Path → Bool} {s m : Store} (h : Knows complete s) {hop : Hop}
    (hm : s.child? hop = some m) : Knows (fun path => complete (hop :: path)) m :=
  fun path n hn => h (hop :: path) n (by rw [below?, hm, Option.bind_some, hn])

/-! ### What an operation does, place by place -/

theorem Change.isSome_act? (c : Change) (h : Held Store) : (c.act? h).isSome = c.fits h := by
  cases c with
  | scalar k v => simp [act?, fits, Held.mapScalar?]
  | strings l => simp [act?, fits, Held.mapStrings?]
  | model r => cases h <;> rfl
  | models pick => simp [act?, fits, Held.mapModels?]

theorem Hop.isSome_mapChild? (hop : Hop) (f : Store → Store) (h : Held Store) :
    (h.mapChild? hop.2 f).isSome = hop.fits h := by
  obtain ⟨key, i⟩ := hop
  cases i with
  | none => cases h <;> rfl
  | some i => simp [Held.mapChild?, Hop.fits, Held.mapModels?]

/-- A store after an operation, compared with the store that it was before. -/
structure Follows (touch : String → Option Touch) (arrange : List String → List String)
    (say : Flags → Flags) (m m' : Store) : Prop where
  keys : m'.allKeys = arrange m.allKeys
  flags : m'.flags = say m.flags
  touched : ∀ k e', m'.find? k = some e' → ∀ t, touch k = some t → e'.dirty = t.mark
  untouched : ∀ k e', m'.find? k = some e' → touch k = none →
    ∃ e, m.find? k = some e ∧ e.dirty = e'.dirty

theorem Follows.refl (m : Store) : Follows (fun _ => none) id (fun f => f) m m where
  keys := rfl
  flags := rfl
  touched := by simp
  untouched := fun k e' he _ => ⟨e', he, rfl⟩

/-- A change in place, where an entry of the key is handed out. -/
theorem follows_update (s : Store) (key : String) {f : Held Store → Option (Held Store)}
    {fits : Held Store → Bool} (hfits : ∀ h, (f h).isSome = fits h) :
    Follows (fun k => if k = key ∧ s.initialized ∧ s.holds key fits then some .changed else none)
      id (fun f => f) s ((s.update? key f).getD s) := by
  have hflags := flags_update s key f
  cases hb : (s.find? key).bind (fun e => f e.held) with
  | none =>
      -- Nothing is handed out, so nothing may count as touched.
      have hholds : s.holds key fits = false := by
        rw [holds]
        cases hf : s.find? key with
        | none => rfl
        | some e =>
            have hnone : f e.held = none := by simpa [hf] using hb
            rw [Option.any_some, ← hfits, hnone, Option.isSome_none]
      rw [update?_of_none s key hb, Option.getD_none]
      simpa [hholds] using Follows.refl s
  | some held =>
      obtain ⟨e, he, hf⟩ := Option.bind_eq_some_iff.mp hb
      obtain ⟨s', hs', hkeys, hfind⟩ := update?_of_some s key he hf
      have hholds : s.holds key fits = true := by
        rw [holds, he, Option.any_some, ← hfits, hf, Option.isSome_some]
      rw [hs', Option.getD_some] at hflags ⊢
      refine ⟨hkeys, hflags, ?_, ?_⟩
      · intro k e' he' t ht
        simp only [hholds, and_true] at ht
        split at ht
        · rename_i hk
          obtain rfl := Option.some.inj ht
          rw [hfind, if_pos hk.1] at he'
          obtain rfl := Option.some.inj he'
          simp [hk.2, Touch.mark]
        · cases ht
      · intro k e' he' ht
        rw [hfind] at he'
        by_cases hk : k = key
        · have hcomplete : s.initialized = false := by simpa [hk, hholds] using ht
          rw [if_pos hk] at he'
          obtain rfl := Option.some.inj he'
          exact ⟨e, hk ▸ he, by simp [hcomplete]⟩
        · rw [if_neg hk] at he'
          exact ⟨e', he', rfl⟩

/-- What is below a key that stays as it was. -/
theorem child?_update_of_ne (s : Store) {key : String} {f : Held Store → Option (Held Store)}
    {hop : Hop} (h : hop.1 ≠ key) : ((s.update? key f).getD s).child? hop = s.child? hop := by
  cases hb : (s.find? key).bind (fun e => f e.held) with
  | none => rw [update?_of_none s key hb, Option.getD_none]
  | some held =>
      obtain ⟨e, he, hf⟩ := Option.bind_eq_some_iff.mp hb
      obtain ⟨s', hs', -, hfind⟩ := update?_of_some s key he hf
      rw [hs', Option.getD_some]
      exact child?_congr (by rw [hfind, if_neg h])

/-- What is below a key that is changed. -/
theorem child?_update_self (s : Store) (key : String) (f : Held Store → Option (Held Store))
    (i : Option Nat) :
    ((s.update? key f).getD s).child? (key, i) =
      (s.find? key).bind fun e => ((f e.held).getD e.held).child? i := by
  cases hb : (s.find? key).bind (fun e => f e.held) with
  | none =>
      rw [update?_of_none s key hb, Option.getD_none, child?]
      cases hf : s.find? key with
      | none => rfl
      | some e =>
          have hnone : f e.held = none := by simpa [hf] using hb
          simp [hnone]
  | some held =>
      obtain ⟨e, he, hf⟩ := Option.bind_eq_some_iff.mp hb
      obtain ⟨s', hs', -, hfind⟩ := update?_of_some s key he hf
      rw [hs', Option.getD_some, child?, hfind, if_pos rfl, he]
      simp [hf]

theorem follows_mark {initialized : Option Bool} {dirty : Bool} {t : Touch} (ht : dirty = t.mark)
    {path : Path} {s m' : Store} (h : below? path (s.mark initialized dirty) = some m') :
    ∃ m, below? path s = some m ∧
      Follows (fun _ => if linksTo path s then some t else none) id
        (fun f => if linksTo path s then { f with complete := initialized.getD f.complete } else f)
        m m' := by
  rw [below?_mark, Option.map_eq_some_iff] at h
  obtain ⟨m, hm, rfl⟩ := h
  refine ⟨m, hm, ?_⟩
  cases hl : linksTo path s with
  | false => simpa using Follows.refl m
  | true =>
      refine ⟨allKeys_mark .., by simp, ?_, ?_⟩
      · intro k e' he' t' ht'
        obtain rfl : t = t' := by simpa using ht'
        simp only [cond_true, find?_mark, Option.map_eq_some_iff] at he'
        obtain ⟨e, -, rfl⟩ := he'
        exact ht
      · intro k e' _ hnone
        simp at hnone

theorem follows_setOnlyChangedBelow {b : Bool} {target path : Path} {s m' : Store}
    (h : below? path (s.setOnlyChangedBelow b target) = some m') :
    ∃ m, below? path s = some m ∧ Follows (fun _ => none) id
      (fun f => if path = target then { f with onlyChanged := b } else f) m m' := by
  induction target generalizing path s with
  | nil =>
      have hfind (k : String) : (s.setOnlyChanged b).find? k = s.find? k := by simp [find?]
      cases path with
      | nil =>
          obtain rfl := Option.some.inj h
          refine ⟨s, rfl, by simp [setOnlyChangedBelow, allKeys], by simp [setOnlyChangedBelow],
            by simp, ?_⟩
          intro k e' he' _
          exact ⟨e', (hfind k).symm.trans he', rfl⟩
      | cons hop path =>
          refine ⟨m', ?_, by simpa using Follows.refl m'⟩
          rw [below?, ← child?_congr (hfind hop.1)]
          exact h
  | cons hop target ih =>
      obtain ⟨key, i⟩ := hop
      cases path with
      | nil =>
          obtain rfl := Option.some.inj h
          refine ⟨s, rfl, allKeys_restore .., by simp [setOnlyChangedBelow], by simp, ?_⟩
          intro k e' he' _
          rw [setOnlyChangedBelow, find?_restore, Option.map_eq_some_iff] at he'
          obtain ⟨e, he, rfl⟩ := he'
          exact ⟨e, he, by split <;> rfl⟩
      | cons hop path =>
          obtain ⟨m, hm, hbelow⟩ := Option.bind_eq_some_iff.mp h
          rw [setOnlyChangedBelow, child?, find?_restore, Option.bind_eq_some_iff] at hm
          obtain ⟨e', he', hm⟩ := hm
          obtain ⟨e, he, rfl⟩ := Option.map_eq_some_iff.mp he'
          -- The hop leads off the target to the old model, or down the target to what became of it.
          have hchild : hop ≠ (key, i) ∧ e.held.child? hop.2 = some m ∨
              hop = (key, i) ∧ ∃ n, e.held.child? hop.2 = some n ∧
                n.setOnlyChangedBelow b target = m := by
            split at hm
            · rename_i hkey
              cases hf : e.held.mapChild? i (setOnlyChangedBelow b target) with
              | none =>
                  simp only [hf, Option.getD_none] at hm
                  refine .inl ⟨?_, hm⟩
                  rintro rfl
                  simp [Held.child?_of_mapChild?_none hf] at hm
              | some held =>
                  have hc := Held.child?_of_mapChild? hf hop.2
                  simp only [hf, Option.getD_some] at hm
                  rw [hm] at hc
                  split at hc
                  · rename_i hi
                    exact .inr ⟨Prod.ext hkey hi, Option.map_eq_some_iff.mp hc.symm⟩
                  · rename_i hi
                    exact .inl ⟨fun heq => hi (congrArg Prod.snd heq), hc.symm⟩
            · rename_i hkey
              exact .inl ⟨fun heq => hkey (congrArg Prod.fst heq), hm⟩
          rcases hchild with ⟨hne, hold⟩ | ⟨rfl, n, hn, rfl⟩
          · exact ⟨m', by simp [below?, child?, he, hold, hbelow],
              by simpa [hne] using Follows.refl m'⟩
          · obtain ⟨m, hm, hfollows⟩ := ih hbelow
            exact ⟨m, by simp [below?, child?, he, hn, hm], by simpa using hfollows⟩

theorem below?_of_child?_eq {s s' m' : Store} {hop : Hop} {path : Path}
    (hc : s'.child? hop = s.child? hop) (h : below? (hop :: path) s' = some m') :
    below? (hop :: path) s = some m' := by
  rw [below?, ← hc]
  exact h

theorem follows_set {s m' : Store} {path : Path} {key : String} {held : Held Recorded}
    {complete : Path → Bool} (hc : Knows complete s)
    (h : below? path ((Op.set key held).run s) = some m') :
    ∃ m, ((Op.set key held).origin s path).store? s = some m ∧
      Follows ((Op.set key held).touch s complete path) ((Op.set key held).arrange path)
        ((Op.set key held).say s path) m m' := by
  cases path with
  | nil =>
      obtain rfl := Option.some.inj h
      refine ⟨s, rfl, allKeys_set .., flags_set .., ?_, ?_⟩
      · intro k e' he' t ht
        simp only [Op.touch, hc.self, Option.ite_none_right_eq_some, Option.some.injEq] at ht
        obtain ⟨rfl, rfl⟩ := ht
        rw [Op.run, find?_set, if_pos rfl] at he'
        obtain rfl := Option.some.inj he'
        rfl
      · intro k e' he' ht
        have hk : k ≠ key := by simpa [Op.touch] using ht
        rw [Op.run, find?_set, if_neg hk] at he'
        exact ⟨e', he', rfl⟩
  | cons hop path =>
      obtain ⟨k, i⟩ := hop
      refine ⟨m', ?_, Follows.refl m'⟩
      by_cases hk : k = key
      · obtain ⟨m, hm, hbelow⟩ := Option.bind_eq_some_iff.mp h
        rw [Op.run, child?, find?_set, if_pos hk, Option.bind_some, Held.child?_map] at hm
        obtain ⟨r, hr, rfl⟩ := Option.map_eq_some_iff.mp hm
        simpa only [Op.origin, if_pos hk, hr, Origin.store?_brought] using hbelow
      · have hc : ((Op.set key held).run s).child? (k, i) = s.child? (k, i) :=
          child?_congr (by rw [Op.run, find?_set, if_neg hk])
        simpa only [Op.origin, if_neg hk, Origin.store?_kept] using below?_of_child?_eq hc h

theorem Change.store?_origin {s m m' : Store} {path : Path} {c : Change} {key : String}
    {i : Option Nat} {e : Entry Store} (he : s.find? key = some e)
    (hm : ((c.act? e.held).getD e.held).child? i = some m) (hbelow : below? path m = some m') :
    (c.origin e.held (key, i) path).store? s = some m' := by
  -- Only a change of a model or of a list of models puts other stores below the key.
  have hkept (i : Option Nat) (hm : e.held.child? i = some m) :
      below? ((key, i) :: path) s = some m' := by
    simp [below?, child?, he, hm, hbelow]
  generalize e.held = h at hm hkept
  cases c with
  | scalar k v =>
      cases hv : h.scalar? k <;> simp_all [act?, Held.mapScalar?, Held.child?, origin]
  | strings l =>
      cases hl : h.strings? <;> simp_all [act?, Held.mapStrings?, Held.child?, origin]
  | model r =>
      cases i with
      | none => cases h <;> simp_all [act?, Held.mapModel?, Held.child?, origin, Held.model?]
      | some i => cases h <;> simp_all [act?, Held.mapModel?, Held.child?, origin]
  | models pick =>
      cases hms : h.models? with
      | none => cases i <;> simp_all [act?, Held.mapModels?, origin]
      | some ms =>
          obtain rfl : h = .models ms := by
            cases h <;> simp_all [Held.models?]
          cases i with
          | none => simp [act?, Held.mapModels?, Held.models?, Held.child?] at hm
          | some i =>
              simp only [act?, Held.mapModels?, Held.models?, Option.map_some, Option.getD_some,
                Held.child?, List.getElem?_map, Option.map_eq_some_iff] at hm
              obtain ⟨pick', hpick, rfl⟩ := hm
              cases pick' with
              | inl j =>
                  have hj := hkept (some j) (by simp [Held.child?])
                  simpa [origin, Held.models?, hpick] using hj
              | inr r => simpa [origin, Held.models?, hpick] using hbelow

theorem follows_change {s m' : Store} {path : Path} {key : String} {c : Change}
    {complete : Path → Bool} (hc : Knows complete s)
    (h : below? path ((Op.change key c).run s) = some m') :
    ∃ m, ((Op.change key c).origin s path).store? s = some m ∧
      Follows ((Op.change key c).touch s complete path) ((Op.change key c).arrange path)
        ((Op.change key c).say s path) m m' := by
  cases path with
  | nil =>
      obtain rfl := Option.some.inj h
      have hfollows := follows_update s key c.isSome_act?
      rw [← hc.self] at hfollows
      exact ⟨s, rfl, hfollows⟩
  | cons hop path =>
      obtain ⟨k, i⟩ := hop
      refine ⟨m', ?_, Follows.refl m'⟩
      by_cases hk : k = key
      · subst hk
        obtain ⟨m, hm, hbelow⟩ := Option.bind_eq_some_iff.mp h
        rw [Op.run, child?_update_self] at hm
        obtain ⟨e, he, hm⟩ := Option.bind_eq_some_iff.mp hm
        simpa only [Op.origin, if_true, he] using Change.store?_origin he hm hbelow
      · have hkept := below?_of_child?_eq (child?_update_of_ne s hk) h
        simpa only [Op.origin, if_neg hk, Origin.store?_kept] using hkept

theorem Origin.store?_under {s m : Store} {hop : Hop} (hm : s.child? hop = some m) (o : Origin) :
    (o.under hop).store? s = o.store? m := by
  cases o with
  | kept path => simp [under, below?, hm]
  | brought r path => rfl

theorem child?_inside {s m : Store} {hop : Hop} {op : Op}
    (hm : ((Op.inside hop op).run s).child? hop = some m) :
    ∃ n, s.child? hop = some n ∧ op.run n = m := by
  rw [Op.run, child?_update_self] at hm
  obtain ⟨e, he, hm⟩ := Option.bind_eq_some_iff.mp hm
  cases hf : e.held.mapChild? hop.2 op.run with
  | none => simp [hf, Held.child?_of_mapChild?_none hf] at hm
  | some held =>
      simp only [hf, Option.getD_some, Held.child?_of_mapChild? hf, if_true,
        Option.map_eq_some_iff] at hm
      obtain ⟨n, hn, hrun⟩ := hm
      exact ⟨n, by simp [child?, he, hn], hrun⟩

theorem child?_inside_of_ne {s : Store} {hop hop' : Hop} {op : Op} (h : hop' ≠ hop) :
    ((Op.inside hop op).run s).child? hop' = s.child? hop' := by
  obtain ⟨key, i⟩ := hop
  obtain ⟨key', j⟩ := hop'
  by_cases hk : key' = key
  · subst hk
    have hij : j ≠ i := fun e => h (by rw [e])
    rw [Op.run, child?_update_self, child?]
    cases hf : s.find? key' with
    | none => rfl
    | some e =>
        cases hc : e.held.mapChild? i op.run with
        | none => simp [hc]
        | some held => simp [hc, Held.child?_of_mapChild? hc, hij]
  · exact child?_update_of_ne s hk

/-- After an operation every store is what it was where it came from, but for what the operation
does at its place. -/
theorem follows_run (op : Op) {s m' : Store} {path : Path} {complete : Path → Bool}
    (hc : Knows complete s) (h : below? path (op.run s) = some m') :
    ∃ m, (op.origin s path).store? s = some m ∧
      Follows (op.touch s complete path) (op.arrange path) (op.say s path) m m' := by
  -- The induction is on the operation, for every path: over `inside`, operation and path lose the
  -- same hop.
  induction op generalizing s path complete with
  | set key held => exact follows_set hc h
  | change key c => exact follows_change hc h
  | remove key =>
      cases path with
      | nil =>
          obtain rfl := Option.some.inj h
          refine ⟨s, rfl, allKeys_remove .., flags_remove .., by simp [Op.touch], ?_⟩
          intro k e' he' _
          rw [Op.run, find?_remove] at he'
          exact ⟨e', (Option.ite_none_left_eq_some.mp he').2, rfl⟩
      | cons hop path =>
          obtain ⟨m, hm, hbelow⟩ := Option.bind_eq_some_iff.mp h
          rw [Op.run, child?, find?_remove, Option.bind_eq_some_iff] at hm
          obtain ⟨e, he, hm⟩ := hm
          have he := (Option.ite_none_left_eq_some.mp he).2
          exact ⟨m', by simp [Op.origin, Origin.store?, below?, child?, he, hm, hbelow],
            Follows.refl m'⟩
  | clear =>
      cases path with
      | nil =>
          obtain rfl := Option.some.inj h
          refine ⟨s, rfl, allKeys_clear s, flags_clear s, by simp [Op.touch], ?_⟩
          intro k e' he' _
          simp [Op.run] at he'
      | cons hop path => simp [Op.run, below?, child?] at h
  | makeSendable =>
      obtain ⟨m, hm, hfollows⟩ := follows_mark (t := .sendable) rfl h
      refine ⟨m, hm, { hfollows with flags := ?_ }⟩
      rw [hfollows.flags]
      split <;> rfl
  | setInitialized b => exact follows_mark (t := .initialized b) rfl h
  | setOnlyChanged target b => exact follows_setOnlyChangedBelow h
  | inside hop op ih =>
      cases path with
      | nil =>
          obtain rfl := Option.some.inj h
          have hfollows := follows_update s hop.1 (hop.isSome_mapChild? op.run)
          rw [← hc.self] at hfollows
          exact ⟨s, rfl, hfollows⟩
      | cons hop' path =>
          obtain ⟨m, hm, hbelow⟩ := Option.bind_eq_some_iff.mp h
          by_cases hhop : hop' = hop
          · subst hhop
            obtain ⟨n, hn, rfl⟩ := child?_inside hm
            obtain ⟨m, hm, hfollows⟩ := ih (hc.child hn) hbelow
            refine ⟨m, ?_, ?_⟩
            · simpa only [Op.origin, if_true, hn, Origin.store?_under hn] using hm
            · simpa only [Op.touch, Op.arrange, Op.say, if_true, hn, Option.bind_some]
                using hfollows
          · refine ⟨m', ?_, ?_⟩
            · have hkept := below?_of_child?_eq (child?_inside_of_ne hhop) h
              simpa only [Op.origin, if_neg hhop, Origin.store?_kept] using hkept
            · have hsame : Follows (fun _ => none) (fun keys => keys) (fun f => f) m' m' :=
                Follows.refl m'
              simpa only [Op.touch, Op.arrange, Op.say, if_neg hhop] using hsame

theorem Change.brings_of_origin {c : Change} {h : Held Store} {hop : Hop} {path rest : Path}
    {r : Recorded} {key : String} (ho : c.origin h hop path = .brought r rest) :
    (Op.change key c).Brings r := by
  obtain ⟨k, i⟩ := hop
  cases c with
  | scalar k v => cases ho
  | strings l => cases ho
  | model r' =>
      cases i with
      | some i => cases ho
      | none =>
          rw [origin] at ho
          split at ho
          · exact (Origin.brought.inj ho).1.symm
          · cases ho
  | models pick =>
      cases i with
      | none => cases ho
      | some i =>
          rw [origin] at ho
          split at ho
          · cases ho
          · rename_i r' hr
            obtain ⟨rfl, -⟩ := Origin.brought.inj ho
            obtain ⟨ms, -, hpick⟩ := Option.bind_eq_some_iff.mp hr
            obtain ⟨j | r'', hmem, hj⟩ := Option.map_eq_some_iff.mp hpick
            · cases hj
            · obtain rfl : r'' = r' := by simpa using hj
              exact ⟨ms.length, List.mem_of_getElem? hmem⟩
          · cases ho

theorem brings_of_origin {op : Op} {s : Store} {path rest : Path} {r : Recorded}
    (h : op.origin s path = .brought r rest) : op.Brings r := by
  induction op generalizing s path rest with
  | set key held =>
      cases path with
      | nil => cases h
      | cons hop path =>
          rw [Op.origin] at h
          split at h
          · rename_i r' hr
            obtain ⟨rfl, -⟩ := Origin.brought.inj h
            exact Held.mem_nested_of_child? (Option.ite_none_right_eq_some.mp hr).2
          · cases h
  | change key c =>
      cases path with
      | nil => cases h
      | cons hop path =>
          rw [Op.origin] at h
          split at h
          · exact Change.brings_of_origin h
          · cases h
  | inside hop op ih =>
      cases path with
      | nil => cases h
      | cons hop' path =>
          rw [Op.origin] at h
          split at h
          · rename_i m _
            cases ho : op.origin m path with
            | kept path => simp [ho, Origin.under] at h
            | brought r' rest' =>
                obtain ⟨rfl, -⟩ : r' = r ∧ rest' = rest := by simpa [ho, Origin.under] using h
                exact ih ho
          · cases h
  | remove | clear | makeSendable | setInitialized | setOnlyChanged => cases h

theorem nodup_arrange (op : Op) (path : Path) {keys : List String} (h : keys.Nodup) :
    (op.arrange path keys).Nodup := by
  induction op generalizing path with
  | set key held =>
      cases path with
      | nil =>
          rw [Op.arrange]
          split
          · exact h
          · rename_i hk
            refine List.nodup_append.mpr ⟨h, by simp, ?_⟩
            intro k hmem k' hk'
            obtain rfl := List.mem_singleton.mp hk'
            exact fun e => hk (e ▸ hmem)
      | cons hop path => exact h
  | remove key =>
      cases path with
      | nil => exact h.filter _
      | cons hop path => exact h
  | clear =>
      cases path with
      | nil => exact List.nodup_nil
      | cons hop path => exact h
  | inside hop op ih =>
      cases path with
      | nil => exact h
      | cons hop' path =>
          rw [Op.arrange]
          split
          · exact ih path
          · exact h
  | change | makeSendable | setInitialized | setOnlyChanged => exact h

/-! ### Runs -/

/-- The record is right about a store: it knows the order of the keys and what the store was told,
and every mark is that of the last touch. -/
structure Agrees (last : String → Option Touch) (order : List String) (flags : Flags)
    (m : Store) : Prop where
  keys : m.allKeys = order
  flags : m.flags = flags
  nodup : order.Nodup
  marks : ∀ k e, m.find? k = some e → ∃ t, last k = some t ∧ e.dirty = t.mark

theorem Agrees.follows {last : String → Option Touch} {order : List String} {flags : Flags}
    {m m' : Store} {touch : String → Option Touch} {arrange : List String → List String}
    {say : Flags → Flags} (h : Agrees last order flags m) (hnodup : (arrange order).Nodup)
    (hfollows : Follows touch arrange say m m') :
    Agrees (fun k => (touch k).or (last k)) (arrange order) (say flags) m' where
  keys := by rw [hfollows.keys, h.keys]
  flags := by rw [hfollows.flags, h.flags]
  nodup := hnodup
  marks := fun k e' he' => by
    cases ht : touch k with
    | some t => exact ⟨t, rfl, hfollows.touched k e' he' t ht⟩
    | none =>
        obtain ⟨e, he, hd⟩ := hfollows.untouched k e' he' ht
        obtain ⟨t, hlast, hmark⟩ := h.marks k e he
        exact ⟨t, hlast, hd ▸ hmark⟩

theorem Reachable.agrees {r : Recorded} (h : Reachable r) {path : Path} {m : Store}
    (hm : below? path r.store = some m) :
    Agrees (r.last path) (r.order path) (r.flags path) m := by
  induction h generalizing path m with
  | new =>
      cases path with
      | nil =>
          obtain rfl := Option.some.inj hm
          exact ⟨rfl, rfl, List.nodup_nil, by simp [Recorded.new, empty, find?]⟩
      | cons hop path => simp [Recorded.new, empty, below?, child?, find?] at hm
  | @step r _ op hop ih ihop =>
      have hknows : Knows r.complete r.store := fun path m hm => by
        rw [Recorded.complete, ← (ih hm).flags, flags]
      obtain ⟨n, hn, hfollows⟩ := follows_run op hknows hm
      -- The store `n` that `m` was before either stood somewhere in this run or was brought in from
      -- another one, and both are agreed with by induction.
      have hbefore : Agrees ((op.origin r.store path).last r)
          ((op.origin r.store path).order r) ((op.origin r.store path).flags r) n := by
        cases ho : op.origin r.store path with
        | kept rest =>
            rw [ho] at hn
            exact ih hn
        | brought r' rest =>
            rw [ho] at hn
            exact ihop r' (brings_of_origin ho) hn
      exact hbefore.follows (nodup_arrange op path hbefore.nodup) hfollows

/-- In every run, the mark of an entry at any depth is that of the operation that touched it last,
a store is what it was told last, and what the stores answer about changes follows from both. -/
theorem marks_of_history {r : Recorded} (h : Reachable r) {path : Path} {m : Store}
    (hm : below? path r.store = some m) :
    m.allKeys = r.order path ∧
    m.initialized = (r.flags path).complete ∧
    m.onlyChanged = (r.flags path).onlyChanged ∧
    (∀ key e, m.find? key = some e → ∃ t, r.last path key = some t ∧ e.dirty = t.mark) ∧
    (∀ key, m.isDirty key = true ↔ ∃ e, m.find? key = some e ∧
      (e.dirty = true ∨ ∃ n ∈ e.held.linked, ∃ t, Reaches n t ∧ ∃ f ∈ t.entries, f.dirty = true)) ∧
    m.dirtyKeys = (r.order path).filter m.isDirty ∧
    m.nulledKeys = (r.order path).filter (fun key =>
      (m.find? key).any fun e => e.dirty && e.held.isNull) ∧
    m.keys = (if m.onlyChanged then m.dirtyKeys else r.order path) ∧
    (∀ key, m.get? key =
      if m.onlyChanged = true ∧ m.isDirty key = false then none
      else (m.find? key).map (·.held)) := by
  obtain ⟨hkeys, hflags, hnodup, hmarks⟩ := h.agrees hm
  rw [← hkeys] at hnodup ⊢
  exact ⟨rfl, congrArg Flags.complete hflags, congrArg Flags.onlyChanged hflags, hmarks,
    fun key => isDirty_iff, dirtyKeys_eq hnodup, nulledKeys_eq hnodup, keys_eq m, get?_eq m⟩

/-- A manager is set as a linked model, everything counts as loaded, the manager is told to return
only changed values, and then it gets a job title. -/
def promoted : Recorded :=
  let manager := Recorded.new.step (.set "id" (.scalar .string "m1"))
  let loaded := (Recorded.new.step (.set "manager" (.model manager))).step (.setInitialized true)
  let limited := loaded.step (.setOnlyChanged [("manager", none)] true)
  limited.step (.inside ("manager", none) (.set "jobTitle" (.scalar .string "Lead")))

theorem marks_of_history_promoted :
    Reachable promoted ∧ ∃ m, below? [("manager", none)] promoted.store = some m ∧
      promoted.last [("manager", none)] "id" = some (.initialized true) ∧
      promoted.last [("manager", none)] "jobTitle" = some (.set true) ∧
      promoted.flags [("manager", none)] = ⟨true, true⟩ ∧ m.onlyChanged = true ∧
      m.dirtyKeys = ["id", "jobTitle"].filter m.isDirty ∧ m.dirtyKeys = ["jobTitle"] := by
  have hmanager : Reachable (Recorded.new.step (.set "id" (.scalar .string "m1"))) :=
    .step .new _ fun r hr => by simp [Op.Brings, Held.nested] at hr
  have hr : Reachable promoted := by
    refine .step (.step (.step (.step .new _ fun r hr => ?_) _ fun r hr => ?_) _ fun r hr => ?_) _
      fun r hr => ?_
    · obtain rfl := List.mem_singleton.mp hr
      exact hmanager
    · cases hr
    · cases hr
    · simp [Op.Brings, Held.nested] at hr
  have hm : below? [("manager", none)] promoted.store = some ⟨true, true, [
      ⟨"id", false, .scalar .string "m1"⟩, ⟨"jobTitle", true, .scalar .string "Lead"⟩]⟩ := rfl
  obtain ⟨-, -, honly, -, -, hdirty, -⟩ := marks_of_history hr hm
  exact ⟨hr, _, hm, rfl, rfl, rfl, honly, hdirty, rfl⟩

end Store

end Marshal
