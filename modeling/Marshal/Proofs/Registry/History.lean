import Mathlib.Data.List.Induction
import Mathlib.Data.String.Basic
import Marshal.Decoder
import Marshal.Encoder
import Marshal.Proofs.ContentType
import Marshal.Proofs.Members

/-!
Histories of registries. What is found under a type is told by what has been done to the registry:
it is the entry that was registered last under that type, unless that has been taken out since, in
all the wraps that came after it.
-/

namespace Marshal

namespace Registry

open ContentType

inductive Action (F : Type)
  /-- An entry is put in under its own content type. -/
  | register (f : F)
  | registerFor (contentType : String) (f : F)
  | unregister (contentType : String)
  /-- Something is put around all entries. -/
  | wrapAll (wrap : F → F)

variable {F : Type}

def tryInsert (r : Registry F) (contentType : String) (f : F) : Result Bool × Registry F :=
  match r.insert contentType f with
  | .ok r' => (.ok true, r')
  | .error e => (.error e, r)

namespace Action

def entry? : Action F → Option F
  | register f | registerFor _ f => some f
  | unregister _ | wrapAll _ => none

def wrap? : Action F → Option (F → F)
  | wrapAll wrap => some wrap
  | _ => none

section

variable (own : F → String)

/-- How an action ends, and what the registry is like then. It may be refused; otherwise the answer
is whether there was something to do. -/
def perform : Action F → Registry F → Result Bool × Registry F
  | register f, r => r.tryInsert (own f) f
  | registerFor contentType f, r => r.tryInsert contentType f
  | unregister contentType, r =>
    match r.erase? contentType with
    | some r' => (.ok true, r')
    | none => (.ok false, r)
  | wrapAll wrap, r => (.ok true, r.mapAll wrap)

def contentType? : Action F → Option String
  | register f => some (own f)
  | registerFor contentType _ | unregister contentType => some contentType
  | wrapAll _ => none

def type? (a : Action F) : Option String :=
  (a.contentType? own).map mediaType

def act (t : String) (a : Action F) (entry : Option F) : Option F :=
  if a.type? own = some t then a.entry? else entry.map (a.wrap?.getD id)

end

end Action

section

variable (own : F → String)

def after (history : List (Action F)) : Registry F :=
  history.foldl (fun r a => (a.perform own r).2) {}

/-- All wraps of a history, the first of them innermost. -/
def wrapped (history : List (Action F)) (f : F) : F :=
  (history.filterMap Action.wrap?).foldl (fun f wrap => wrap f) f

/-- The entry `f` was registered last under `t`, nothing has taken it out since, and it is in all
the wraps that were put on since then. -/
def Live (history : List (Action F)) (t : String) (f : F) : Prop :=
  ∃ before a since g, history = before ++ a :: since ∧ a.type? own = some t ∧ a.entry? = some g ∧
    (∀ b ∈ since, b.type? own ≠ some t) ∧ f = wrapped since g

/-- What a look-up of the type `t` gives: the entry that is live under it, or else the one under the
type that its suffix names. -/
inductive Resolves (history : List (Action F)) (t : String) : String → F → Prop
  | exact {f : F} (live : Live own history t f) : Resolves history t t f
  | suffix {cleaned : String} {f : F} (absent : ∀ g, ¬ Live own history t g)
      (suffixed : Suffixed t cleaned) (live : Live own history cleaned f) :
      Resolves history t cleaned f

end

variable {own : F → String}

/-! ### One action -/

section

variable {contentType t : String} (r : Registry F)

theorem tryInsert_of_blank (h : mediaType contentType = "") (f : F) :
    r.tryInsert contentType f = (.error (.invalidArgument .emptyContentType), r) := by
  simp [tryInsert, insert, ContentType.normalize, h, bind, Except.bind]

theorem tryInsert_of_ne (h : mediaType contentType ≠ "") (f : F) :
    r.tryInsert contentType f = (.ok true, ⟨r.entries.put (mediaType contentType) f⟩) := by
  simp [tryInsert, insert, ContentType.normalize, h, bind, Except.bind, pure, Except.pure]

theorem unregister_of_blank (h : mediaType contentType = "") :
    (Action.unregister contentType).perform own r = (.ok false, r) := by
  simp [Action.perform, erase?, ContentType.normalize, h]

theorem unregister_of_has (hne : mediaType contentType ≠ "")
    (h : r.entries.has (mediaType contentType) = true) :
    (Action.unregister contentType).perform own r =
      (.ok true, ⟨r.entries.erase (mediaType contentType)⟩) := by
  simp [Action.perform, erase?, ContentType.normalize, hne, h]

theorem unregister_of_not_has (hne : mediaType contentType ≠ "")
    (h : r.entries.has (mediaType contentType) = false) :
    (Action.unregister contentType).perform own r = (.ok false, r) := by
  simp [Action.perform, erase?, ContentType.normalize, hne, h]

theorem get?_tryInsert (ht : t ≠ "") (f : F) :
    (r.tryInsert contentType f).2.entries.get? t =
      if mediaType contentType = t then some f else r.entries.get? t := by
  by_cases hblank : mediaType contentType = ""
  · rw [tryInsert_of_blank r hblank, if_neg]
    rw [hblank]
    exact ht.symm
  · rw [tryInsert_of_ne r hblank]
    by_cases hkey : mediaType contentType = t
    · rw [if_pos hkey, hkey]
      exact Members.get?_put_self ..
    · rw [if_neg hkey]
      exact Members.get?_put_of_ne (Ne.symm hkey) f

theorem get?_unregister (ht : t ≠ "") :
    ((Action.unregister contentType).perform own r).2.entries.get? t =
      if mediaType contentType = t then none else r.entries.get? t := by
  by_cases hblank : mediaType contentType = ""
  · rw [unregister_of_blank r hblank, if_neg]
    rw [hblank]
    exact ht.symm
  · cases hhas : r.entries.has (mediaType contentType) with
    | true =>
        rw [unregister_of_has r hblank hhas, Members.get?_erase]
        simp only [eq_comm]
    | false =>
        rw [unregister_of_not_has r hblank hhas]
        split
        · rename_i hkey
          rw [← hkey, Members.get?_eq_none_iff, ← Members.has_iff_mem_keys, hhas]
          exact Bool.false_ne_true
        · rfl

end

/-- An action does to the entry under each type what `act` says. -/
theorem get?_perform {t : String} (ht : t ≠ "") (a : Action F) (r : Registry F) :
    (a.perform own r).2.entries.get? t = a.act own t (r.entries.get? t) := by
  cases a with
  | register f =>
      rw [Action.perform, get?_tryInsert r ht]
      simp [Action.act, Action.type?, Action.contentType?, Action.entry?, Action.wrap?]
  | registerFor contentType f =>
      rw [Action.perform, get?_tryInsert r ht]
      simp [Action.act, Action.type?, Action.contentType?, Action.entry?, Action.wrap?]
  | unregister contentType =>
      rw [get?_unregister r ht]
      simp [Action.act, Action.type?, Action.contentType?, Action.entry?, Action.wrap?]
  | wrapAll wrap =>
      rw [Action.perform, mapAll, Members.get?_mapValues]
      simp [Action.act, Action.type?, Action.contentType?, Action.wrap?]

/-- The names of a registry: each stands once, and none is blank. -/
structure Keyed (r : Registry F) : Prop where
  nodup : r.entries.keys.Nodup
  named : "" ∉ r.entries.keys

theorem Keyed.tryInsert {r : Registry F} (h : r.Keyed) (contentType : String) (f : F) :
    (r.tryInsert contentType f).2.Keyed := by
  by_cases hblank : mediaType contentType = ""
  · rw [tryInsert_of_blank r hblank]
    exact h
  · rw [tryInsert_of_ne r hblank]
    refine ⟨Members.nodup_keys_put h.nodup .., ?_⟩
    rw [Members.keys_put]
    split
    · exact h.named
    · intro hmem
      rcases List.mem_append.mp hmem with hmem | hmem
      · exact h.named hmem
      · exact hblank (List.mem_singleton.mp hmem).symm

theorem Keyed.perform {r : Registry F} (h : r.Keyed) (a : Action F) :
    (a.perform own r).2.Keyed := by
  cases a with
  | register f => exact h.tryInsert (own f) f
  | registerFor contentType f => exact h.tryInsert contentType f
  | unregister contentType =>
      by_cases hblank : mediaType contentType = ""
      · rw [unregister_of_blank r hblank]
        exact h
      · cases hhas : r.entries.has (mediaType contentType) with
        | false =>
            rw [unregister_of_not_has r hblank hhas]
            exact h
        | true =>
            have hsub : (r.entries.erase (mediaType contentType)).keys.Sublist r.entries.keys :=
              List.filter_sublist.map _
            rw [unregister_of_has r hblank hhas]
            exact ⟨h.nodup.sublist hsub, fun hmem => h.named (hsub.subset hmem)⟩
  | wrapAll wrap =>
      refine ⟨?_, ?_⟩
      · rw [Action.perform, mapAll, Members.keys_mapValues]
        exact h.nodup
      · rw [Action.perform, mapAll, Members.keys_mapValues]
        exact h.named

/-! ### Histories -/

theorem after_concat (history : List (Action F)) (a : Action F) :
    after own (history ++ [a]) = (a.perform own (after own history)).2 := by
  rw [after, List.foldl_concat]
  rfl

theorem wrapped_concat (history : List (Action F)) (a : Action F) (f : F) :
    wrapped (history ++ [a]) f = a.wrap?.getD id (wrapped history f) := by
  rw [wrapped, List.filterMap_append, List.foldl_append]
  cases h : a.wrap? <;> simp [h, wrapped]

/-- What is live after one more action. -/
theorem live_concat {history : List (Action F)} {a : Action F} {t : String} {f : F} :
    Live own (history ++ [a]) t f ↔
      if a.type? own = some t then a.entry? = some f
      else ∃ g, Live own history t g ∧ f = a.wrap?.getD id g := by
  constructor
  · rintro ⟨before, b, since, g, heq, hb, hg, hsince, rfl⟩
    -- Either the entry came with the last action, or the last action is one of those since then.
    rcases List.eq_nil_or_concat since with rfl | ⟨since, c, rfl⟩
    · obtain ⟨-, hab⟩ := List.append_inj' heq rfl
      obtain rfl : a = b := List.singleton_inj.mp hab
      rw [if_pos hb]
      exact hg
    · rw [List.concat_eq_append] at heq hsince ⊢
      have heq' : history ++ [a] = (before ++ b :: since) ++ [c] := by simpa using heq
      obtain ⟨hhistory, hac⟩ := List.append_inj' heq' rfl
      obtain rfl : a = c := List.singleton_inj.mp hac
      rw [if_neg (hsince a (by simp))]
      refine ⟨wrapped since g, ⟨before, b, since, g, hhistory, hb, hg, ?_, rfl⟩, ?_⟩
      · exact fun x hx => hsince x (by simp [hx])
      · exact wrapped_concat since a g
  · intro h
    split at h
    · rename_i ha
      exact ⟨history, a, [], f, rfl, ha, h, List.forall_mem_nil _, rfl⟩
    · rename_i ha
      obtain ⟨-, ⟨before, b, since, g, rfl, hb, hg, hsince, rfl⟩, rfl⟩ := h
      refine ⟨before, b, since ++ [a], g, by simp, hb, hg, ?_, (wrapped_concat since a g).symm⟩
      rw [List.forall_mem_append]
      exact ⟨hsince, List.forall_mem_singleton.mpr ha⟩

/-- The registry holds what is live. -/
theorem get?_after_iff {history : List (Action F)} {t : String} (ht : t ≠ "") {f : F} :
    (after own history).entries.get? t = some f ↔ Live own history t f := by
  induction history using List.reverseRecOn generalizing f with
  | nil =>
      constructor
      · intro h
        cases h
      · rintro ⟨before, a, since, g, heq, -⟩
        simp at heq
  | append_singleton history a ih =>
      rw [after_concat, get?_perform ht, Action.act, live_concat]
      split
      · rfl
      · simp only [Option.map_eq_some_iff, ih, eq_comm (a := f)]

theorem keyed_after (history : List (Action F)) : (after own history).Keyed := by
  induction history using List.reverseRecOn with
  | nil => exact ⟨.nil, List.not_mem_nil⟩
  | append_singleton history a ih =>
      rw [after_concat]
      exact ih.perform a

theorem mem_keys_after_iff {history : List (Action F)} {t : String} :
    t ∈ (after own history).entries.keys ↔ t ≠ "" ∧ ∃ f, Live own history t f := by
  by_cases ht : t = ""
  · subst ht
    simp [(keyed_after history).named]
  · simp only [← Members.has_iff_mem_keys, Members.has_iff_get?, get?_after_iff ht, ne_eq, ht,
      not_false_eq_true, true_and]

/-! ### Look-ups -/

/-- A look-up gives what the history resolves the type to. -/
theorem findKey?_after_iff {history : List (Action F)} {t key : String} (ht : t ≠ "") {f : F} :
    (after own history).findKey? t = some (key, f) ↔ Resolves own history t key f := by
  rw [findKey?]
  cases hget : (after own history).entries.get? t with
  | some g =>
      have hlive : Live own history t g := (get?_after_iff ht).mp hget
      constructor
      · rintro ⟨⟩
        exact .exact hlive
      · intro h
        cases h with
        | exact hf =>
            obtain rfl : g = f := by simpa [(get?_after_iff ht).mpr hf] using hget.symm
            rfl
        | suffix absent => exact absurd hlive (absent g)
  | none =>
      have habsent (g : F) : ¬ Live own history t g := by
        rw [← get?_after_iff ht, hget]
        simp
      constructor
      · intro h
        simp only [Option.bind_eq_bind, Option.bind_eq_some_iff] at h
        obtain ⟨cleaned, hcleaned, g, hg, ⟨⟩⟩ := h
        have hsuffixed : Suffixed t key := vendorCleaned?_eq_some_iff.mp hcleaned
        exact .suffix habsent hsuffixed ((get?_after_iff hsuffixed.ne_empty).mp hg)
      · intro h
        cases h with
        | exact hf => exact absurd hf (habsent f)
        | suffix _ hsuffixed hlive =>
            simp [vendorCleaned?_eq_some_iff.mpr hsuffixed,
              (get?_after_iff hsuffixed.ne_empty).mpr hlive]

theorem find_of_blank (r : Registry F) {contentType : String} (h : mediaType contentType = "") :
    r.find contentType = .error (.invalidArgument .emptyContentType) := by
  simp [find, ContentType.normalize, h, bind, Except.bind]

theorem find_of_ne (r : Registry F) {contentType : String} (h : mediaType contentType ≠ "") :
    r.find contentType =
      match r.findKey? (mediaType contentType) with
      | some found => .ok found
      | none => .error (.unsupportedContentType (mediaType contentType)) := by
  simp only [find, ContentType.normalize, String.isEmpty_iff, h, if_false]
  rfl

theorem find_after_iff {history : List (Action F)} {contentType key : String}
    (h : mediaType contentType ≠ "") {f : F} :
    (after own history).find contentType = .ok (key, f) ↔
      Resolves own history (mediaType contentType) key f := by
  rw [find_of_ne _ h, ← findKey?_after_iff h]
  split
  · rename_i found hfound
    simp [hfound]
  · rename_i hfound
    simp [hfound]

theorem find_after_of_not {history : List (Action F)} {contentType : String}
    (h : mediaType contentType ≠ "")
    (habsent : ∀ key f, ¬ Resolves own history (mediaType contentType) key f) :
    (after own history).find contentType =
      .error (.unsupportedContentType (mediaType contentType)) := by
  have hfind : (after own history).findKey? (mediaType contentType) = none := by
    refine Option.eq_none_iff_forall_ne_some.mpr ?_
    rintro ⟨key, f⟩ hfound
    exact habsent key f ((findKey?_after_iff h).mp hfound)
  rw [find_of_ne _ h, hfind]

/-- The listed types stand in order, and so each of them once. -/
theorem Keyed.pairwise_contentTypes {r : Registry F} (h : r.Keyed) :
    r.contentTypes.Pairwise (· < ·) := by
  have hsorted : r.contentTypes.Pairwise (· ≤ ·) := by
    simpa [contentTypes] using @List.pairwise_mergeSort _ (fun s t : String => decide (s ≤ t))
      (by simpa using fun _ _ _ => le_trans) (by simpa using le_total) r.entries.keys
  have hnodup : r.contentTypes.Nodup := (List.mergeSort_perm ..).nodup_iff.mpr h.nodup
  exact (hsorted.and hnodup).imp fun hst => lt_of_le_of_ne hst.1 hst.2

theorem mem_contentTypes {r : Registry F} {t : String} :
    t ∈ r.contentTypes ↔ t ∈ r.entries.keys :=
  List.mem_mergeSort

/-! ### What a history says of a registry -/

/-- What calls on a registry that has this history do. -/
structure Follows (own : F → String) (history : List (Action F)) : Prop where
  find_blank : ∀ contentType, mediaType contentType = "" →
    (after own history).find contentType = .error (.invalidArgument .emptyContentType)
  register_blank : ∀ f, mediaType (own f) = "" →
    (Action.register f).perform own (after own history) =
      (.error (.invalidArgument .emptyContentType), after own history)
  registerFor_blank : ∀ contentType f, mediaType contentType = "" →
    (Action.registerFor contentType f).perform own (after own history) =
      (.error (.invalidArgument .emptyContentType), after own history)
  unregister_blank : ∀ contentType, mediaType contentType = "" →
    (Action.unregister contentType).perform own (after own history) =
      (.ok false, after own history)
  find_iff : ∀ contentType, mediaType contentType ≠ "" → ∀ key f,
    (after own history).find contentType = .ok (key, f) ↔
      Resolves own history (mediaType contentType) key f
  find_absent : ∀ contentType, mediaType contentType ≠ "" →
    (∀ key f, ¬ Resolves own history (mediaType contentType) key f) →
    (after own history).find contentType =
      .error (.unsupportedContentType (mediaType contentType))
  mem_contentTypes : ∀ t, t ∈ (after own history).contentTypes ↔
    t ≠ "" ∧ ∃ f, Live own history t f
  contentTypes_increasing : (after own history).contentTypes.Pairwise (· < ·)

theorem follows (own : F → String) (history : List (Action F)) : Follows own history := by
  refine ⟨fun _ h => find_of_blank _ h, fun f h => ?_, fun _ f h => ?_,
    fun _ h => unregister_of_blank _ h, fun _ h _ _ => find_after_iff h,
    fun _ h => find_after_of_not h, fun t => ?_, (keyed_after history).pairwise_contentTypes⟩
  · rw [Action.perform, tryInsert_of_blank _ h]
  · rw [Action.perform, tryInsert_of_blank _ h]
  · exact Registry.mem_contentTypes.trans mem_keys_after_iff

theorem root_of_find {r : Decoders} {contentType key : String} {d : Decoder} {content : Bytes}
    (h : r.find contentType = .ok (key, d)) (hcontent : content ≠ []) :
    r.root contentType content = d.root key content := by
  simp [Decoders.root, hcontent, h, bind, Except.bind]

theorem output_of_find {r : Encoders} {contentType key : String} {e : Encoder}
    (h : r.find contentType = .ok (key, e)) : r.output contentType = .ok (e.output key) := by
  simp [Encoders.output, h, bind, Except.bind, pure, Except.pure]

/-- Look-ups in any registry follow its history, and what is found makes its roots and outputs under
the type that it was found under. -/
theorem resolution_of_history :
    (∀ (F : Type) (own : F → String) (history : List (Action F)), Follows own history) ∧
    (∀ (history : List (Action Decoder)) (contentType key : String) (d : Decoder) (content : Bytes),
      mediaType contentType ≠ "" → content ≠ [] →
      Resolves Decoder.contentType history (mediaType contentType) key d →
      Decoders.root (after Decoder.contentType history) contentType content =
        d.root key content) ∧
    ∀ (history : List (Action Encoder)) (contentType key : String) (e : Encoder),
      mediaType contentType ≠ "" →
      Resolves Encoder.contentType history (mediaType contentType) key e →
      Encoders.output (after Encoder.contentType history) contentType = .ok (e.output key) := by
  refine ⟨fun F own history => follows own history, ?_, ?_⟩
  · intro history contentType key d content hne hcontent hresolves
    exact root_of_find ((find_after_iff hne).mpr hresolves) hcontent
  · intro history contentType key e hne hresolves
    exact output_of_find ((find_after_iff hne).mpr hresolves)

/-- The stock registries have histories of their own. -/
example : after Decoder.contentType [.register .json, .register .text, .register .form] =
    Decoders.stock := by rfl

def acmeHistory : List (Action Decoder) :=
  [.register .json, .wrapAll (Decoder.wrap .changes),
    .registerFor "Application/Vnd.Acme+JSON; v=1" .text, .unregister "application/vnd.acme+json "]

theorem resolution_of_history_acme :
    Resolves Decoder.contentType acmeHistory "application/vnd.acme+json" ContentType.json
        { Decoder.json with layers := [.changes] } ∧
      (after Decoder.contentType acmeHistory).contentTypes = [ContentType.json] ∧
      Decoders.root (after Decoder.contentType acmeHistory) "application/vnd.acme+json" [0x31] =
        .ok { node := .json { value := .number "1", maxDepth := 64 }, layers := [.changes] } := by
  have hne : mediaType "application/vnd.acme+json" ≠ "" := by decide +kernel
  have hresolves : Resolves Decoder.contentType acmeHistory "application/vnd.acme+json"
      ContentType.json { Decoder.json with layers := [.changes] } := by
    have htype : mediaType "application/vnd.acme+json" = "application/vnd.acme+json" := by
      decide +kernel
    rw [← htype]
    exact ((resolution_of_history.1 Decoder Decoder.contentType acmeHistory).find_iff _ hne _ _).mp
      (by rfl)
  refine ⟨hresolves, by decide +kernel, ?_⟩
  rw [resolution_of_history.2.1 acmeHistory _ _ _ _ hne (by decide) hresolves]
  rfl

end Registry

end Marshal
