import Marshal.Models.Profile.Edit
import Marshal.Proofs.Json.Overlay
import Marshal.Proofs.Profile.Loading

/-!
Sending what has changed. Texts of a loaded profile, and of profiles below it, are edited in any
order; the object of changes that is written then, laid over what was loaded, is the profile as it
has become.
-/

namespace Marshal

namespace Profile

/-! ### Changes since a document -/

mutual

/-- Whatever a profile holds that the document does not say is marked as changed. The profile has
all members of the document. -/
def Since : Store → Json → Prop
  | ⟨i, o, es⟩, base => i = true ∧ o = false ∧ Proper ⟨i, o, es⟩ ∧
      ∃ members : Members Json, base = .object members ∧ members.keys.Nodup ∧
        members.keys ⊆ Store.allKeys ⟨i, o, es⟩ ∧ EntriesSince es members

def EntriesSince : List (Entry Store) → Members Json → Prop
  | [], _ => True
  | ⟨key, dirty, held⟩ :: es, members =>
    HeldSince dirty held (members.get? key) ∧ EntriesSince es members

/-- A text may be new if its entry is marked; a profile was there before, and has changed within. -/
def HeldSince : Bool → Held Store → Option Json → Prop
  | dirty, .null, v => dirty = true ∨ v = some .null
  | dirty, .scalar .string s, v => dirty = true ∨ v = some (.string s)
  | _, .model m, v => ∃ base, v = some base ∧ Since m base
  | _, .models ms, v => ∃ bases, v = some (.array bases) ∧ ModelsSince ms bases
  | _, _, _ => False

def ModelsSince : List Store → List Json → Prop
  | [], [] => True
  | m :: ms, base :: bases => Since m base ∧ ModelsSince ms bases
  | _, _ => False

end

theorem entriesSince_iff {es : List (Entry Store)} {members : Members Json} :
    EntriesSince es members ↔ ∀ e ∈ es, HeldSince e.dirty e.held (members.get? e.key) := by
  induction es with
  | nil => simp [EntriesSince]
  | cons e es ih => rw [EntriesSince, ih, List.forall_mem_cons]

theorem modelsSince_iff {ms : List Store} {bases : List Json} :
    ModelsSince ms bases ↔ List.Forall₂ Since ms bases := by
  induction ms generalizing bases with
  | nil => cases bases <;> simp [ModelsSince]
  | cons m ms ih => cases bases <;> simp [ModelsSince, ih]

theorem since_object_iff {p : Store} {members : Members Json} :
    Since p (.object members) ↔ p.initialized = true ∧ p.onlyChanged = false ∧ Proper p ∧
      members.keys.Nodup ∧ members.keys ⊆ p.allKeys ∧
      ∀ e ∈ p.entries, HeldSince e.dirty e.held (members.get? e.key) := by
  obtain ⟨i, o, es⟩ := p
  simp [Since, entriesSince_iff, Store.initialized]

theorem Since.object {p : Store} {base : Json} (h : Since p base) :
    ∃ members, base = .object members := by
  obtain ⟨i, o, es⟩ := p
  obtain ⟨-, -, -, members, rfl, -⟩ := h
  exact ⟨members, rfl⟩

/-- Nothing has changed since the contents of a profile that is settled. -/
theorem since_contents {d : Bool} {p : Store} (h : Store.Everywhere (Settled d) p) :
    Since p p.contents := by
  induction p using Store.induct with
  | step p ih =>
      rw [Store.contents_eq, since_object_iff]
      have hnodup := h.root.proper.nodup
      refine ⟨h.root.initialized, h.root.shows, h.root.proper, ?_, ?_, fun e he => ?_⟩
      · rwa [Store.keys_contents]
      · rw [Store.keys_contents]
        exact List.Subset.refl _
      · rw [← Store.keys_contents] at hnodup
        rw [Members.get?_of_mem hnodup (p := (e.key, Store.contentsHeld e.held))
          (List.mem_map_of_mem he)]
        obtain ⟨property, -, ha⟩ := h.root.proper.typed e he
        have hnested := fun m hm => ih e he m hm (h.nested he hm)
        generalize e.held = held at ha hnested
        cases held with
        | null => exact .inr rfl
        | scalar k x =>
            cases k with
            | string => exact .inr rfl
            | _ => cases property <;> simp [Property.Admits] at ha
        | model m => exact ⟨_, rfl, hnested m (List.mem_singleton_self m)⟩
        | models ms =>
            refine ⟨_, rfl, modelsSince_iff.mpr ?_⟩
            rw [Store.contentsEach_eq, List.forall₂_map_right_iff, List.forall₂_same]
            exact hnested
        | plain m | strings l => cases property <;> simp [Property.Admits] at ha

theorem HeldSince.nested {d : Bool} {held : Held Store} {v : Option Json} (h : HeldSince d held v) :
    ∀ m ∈ held.nested, ∃ base, Since m base := by
  intro m hm
  cases held with
  | model n =>
      obtain ⟨base, -, hn⟩ := h
      obtain rfl := List.mem_singleton.mp hm
      exact ⟨base, hn⟩
  | models ms =>
      obtain ⟨bases, -, hms⟩ := h
      obtain ⟨i, hi, rfl⟩ := List.mem_iff_getElem.mp hm
      have hms := modelsSince_iff.mp hms
      exact ⟨_, hms.get hi (hms.length_eq ▸ hi)⟩
  | null | scalar k x | strings l => cases hm
  | plain n => exact h.elim

/-- Changes leave a profile that shows everything. -/
theorem Since.everywhere {p : Store} {base : Json} (h : Since p base) :
    Store.Everywhere (fun q => Proper q ∧ q.onlyChanged = false) p := by
  induction p using Store.induct generalizing base with
  | step p ih =>
      obtain ⟨members, rfl⟩ := h.object
      obtain ⟨-, ho, hp, -, -, hentries⟩ := since_object_iff.mp h
      refine Store.everywhere_iff.mpr ⟨⟨hp, ho⟩, fun e he m hm => ?_⟩
      obtain ⟨base, hbase⟩ := (hentries e he).nested m hm
      exact ih e he m hm hbase

/-! ### Edits -/

/-- A text of a profile, to be set to something or to null, and the way to that profile. -/
structure Edit where
  hops : List Hop
  property : Property
  isText : property.isText = true
  text : Option String

def Edit.run (e : Edit) (p : Profile) : Profile :=
  (editAt (fun q => ((), set q e.property (.text e.text))) e.hops p).2

def at? : List Hop → Profile → Option Profile
  | [], p => some p
  | .manager :: hops, p => (heldManager? p).bind (at? hops)
  | .report i :: hops, p => ((heldReports? p).bind (·[i]?)).bind (at? hops)

theorem find?_touch {p : Profile} (property : Property) {e : Entry Store}
    (he : Store.find? p property.key = some e) {f : Held Store → Option (Held Store)}
    {held : Held Store} (hf : f e.held = some held) :
    (Store.find? (touch p property f) property.key).map (·.held) = some held := by
  obtain ⟨p', hp', -, hfind⟩ := Store.update?_of_some p property.key he hf
  rw [touch, hp', Option.getD_some, hfind, if_pos rfl, Option.map_some]

theorem exists_mapModel? {h : Held Profile} {m : Profile} (hm : h.model? = some m)
    (f : Profile → Profile) :
    ∃ held, h.mapModel? f = some held ∧ held.model? = some (f m) := by
  cases h with
  | plain n | model n =>
      obtain rfl := Option.some.inj hm
      exact ⟨_, rfl, rfl⟩
  | _ => cases hm

theorem heldManager?_touch {p m : Profile} (hm : heldManager? p = some m) (m' : Profile) :
    heldManager? (touch p .manager (·.mapModel? fun _ => m')) = some m' := by
  obtain ⟨e, he, hheld⟩ := Option.bind_eq_some_iff.mp hm
  obtain ⟨held, hmap, hmodel⟩ := exists_mapModel? hheld fun _ => m'
  obtain ⟨e', he', rfl⟩ := Option.map_eq_some_iff.mp (find?_touch .manager he hmap)
  rw [heldManager?, he', Option.bind_some, hmodel]

theorem heldReports?_touch {p : Profile} {ms : List Profile} (hms : heldReports? p = some ms)
    (f : List Profile → List Profile) :
    heldReports? (touch p .reports (·.mapModels? f)) = some (f ms) := by
  obtain ⟨e, he, hheld⟩ := Option.bind_eq_some_iff.mp hms
  have hmap : e.held.mapModels? f = some (.models (f ms)) := by
    rw [Held.mapModels?, hheld, Option.map_some]
  obtain ⟨e', he', hheld'⟩ :=
    Option.map_eq_some_iff.mp (find?_touch .reports he hmap)
  rw [heldReports?, he', Option.bind_some, hheld']
  rfl

/-- What is done to the profile at the end of the way is what one meets there afterwards. -/
theorem at?_editAt {β : Type} (f : Profile → β × Profile) (hops : List Hop) (p : Profile) :
    at? hops (editAt f hops p).2 = (at? hops p).map fun q => (f q).2 := by
  induction hops generalizing p with
  | nil => rfl
  | cons hop hops ih =>
      cases hop with
      | manager =>
          rw [editAt, at?, at?]
          cases hm : heldManager? p with
          | none => rw [hm, Option.bind_none, Option.map_none]
          | some m => rw [heldManager?_touch hm, Option.bind_some, Option.bind_some, ih]
      | report i =>
          rw [editAt, at?, at?]
          cases hms : heldReports? p with
          | none => rw [hms, Option.bind_none, Option.bind_none, Option.map_none]
          | some ms =>
              cases hm : ms[i]? with
              | none => simp [hm, heldReports?_touch hms]
              | some m =>
                  have hi : i < ms.length := (List.getElem?_eq_some_iff.mp hm).1
                  simp [heldReports?_touch hms, hi, ih]

/-- After an edit the profile at the end of the way holds the text under the property, also where
the text is nothing, and is otherwise what it was. -/
theorem Edit.at?_run (e : Edit) (p : Profile) :
    at? e.hops (e.run p) =
      (at? e.hops p).map fun q => Profile.set q e.property (.text e.text) :=
  at?_editAt _ e.hops p

theorem Edit.find?_run {e : Edit} {p q : Profile} (hq : at? e.hops (e.run p) = some q) :
    (Store.find? q e.property.key).map (·.held) = some (.ofScalar? .string e.text) := by
  rw [e.at?_run, Option.map_eq_some_iff] at hq
  obtain ⟨q', -, rfl⟩ := hq
  rw [Profile.set, Store.find?_set, if_pos rfl, Option.map_some, Value.held]

/-- New entries are changes too, if they are such by themselves. -/
theorem Since.change {p p' : Store} {members : Members Json} (h : Since p (.object members))
    (hi : p'.initialized = p.initialized) (ho : p'.onlyChanged = p.onlyChanged) (hp : Proper p')
    (hsub : p.allKeys ⊆ p'.allKeys)
    (hentries : ∀ e ∈ p'.entries, HeldSince e.dirty e.held (members.get? e.key) ∨ e ∈ p.entries) :
    Since p' (.object members) := by
  obtain ⟨hinit, hshows, -, hnodup, hkeys, hheld⟩ := since_object_iff.mp h
  exact since_object_iff.mpr ⟨hi.trans hinit, ho.trans hshows, hp, hnodup,
    List.Subset.trans hkeys hsub, fun e he => (hentries e he).elim id (hheld e)⟩

theorem Since.set {p : Profile} {base : Json} (h : Since p base) {property : Property}
    (ht : property.isText = true) (t : Option String) :
    Since (set p property (.text t)) base := by
  obtain ⟨members, rfl⟩ := h.object
  obtain ⟨hi, -, hp, -⟩ := since_object_iff.mp h
  refine h.change (Store.initialized_set ..) (Store.onlyChanged_set ..)
    (hp.set (property.admits_text ht t)) ?_ fun e he => ?_
  · rw [Profile.set, Store.allKeys_set]
    split_ifs
    · exact List.Subset.refl _
    · exact List.subset_append_left ..
  · rcases Store.mem_entries_set p _ he with rfl | he
    · rw [hi]
      cases t <;> exact .inl (.inl rfl)
    · exact .inr he

theorem Since.touch {p : Profile} {members : Members Json} (h : Since p (.object members))
    {property : Property} {e : Entry Store} (he : Store.find? p property.key = some e)
    {f : Held Store → Option (Held Store)}
    (hf : ∀ held, f e.held = some held →
      property.Admits held ∧ HeldSince true held (members.get? property.key)) :
    Since (touch p property f) (.object members) := by
  obtain ⟨hi, -, hp, -⟩ := since_object_iff.mp h
  rw [Profile.touch]
  cases hupdate : Store.update? p property.key f with
  | none => exact h
  | some p' =>
      obtain ⟨hinit, hshows⟩ := Store.flags_of_update? hupdate
      obtain ⟨hkeys, e', held, he', hheld, hentries⟩ := Store.exists_of_update? hp.nodup hupdate
      obtain rfl : e = e' := Option.some.inj (he.symm.trans he')
      obtain ⟨ha, hsince⟩ := hf held hheld
      refine h.change hinit hshows ⟨hkeys ▸ hp.nodup, fun e' he' => ?_⟩
        (hkeys ▸ List.Subset.refl _) fun e' he' => ?_
      · rcases hentries e' he' with rfl | he'
        · exact ⟨property, rfl, ha⟩
        · exact hp.typed e' he'
      · rcases hentries e' he' with rfl | he'
        · rw [hi]
          exact .inl hsince
        · exact .inr he'

/-- One profile in a list may be another one. -/
theorem ModelsSince.set {ms : List Store} {bases : List Json} (h : ModelsSince ms bases) {i : Nat}
    {m m' : Store} (hm : ms[i]? = some m) (hsince : ∀ base, Since m base → Since m' base) :
    ModelsSince (ms.set i m') bases := by
  induction ms generalizing bases i with
  | nil => simp at hm
  | cons n ms ih =>
      cases bases with
      | nil => exact h.elim
      | cons base bases =>
          cases i with
          | zero =>
              obtain rfl : n = m := Option.some.inj hm
              exact ⟨hsince base h.1, h.2⟩
          | succ i => exact ⟨h.1, ih h.2 hm⟩

theorem exists_of_heldManager? {p : Profile} (hp : Proper p) {m : Profile}
    (h : heldManager? p = some m) :
    ∃ e, Store.find? p Property.manager.key = some e ∧ e.held = .model m := by
  obtain ⟨e, he, hm⟩ := Option.bind_eq_some_iff.mp h
  obtain ⟨hmem, hkey⟩ := Store.find?_eq_some he
  refine ⟨e, he, ?_⟩
  rcases admits_of_key_eq hp hmem hkey with hheld | ⟨n, hheld⟩ <;> rw [hheld] at hm ⊢ <;> cases hm
  rfl

theorem exists_of_heldReports? {p : Profile} (hp : Proper p) {ms : List Profile}
    (h : heldReports? p = some ms) :
    ∃ e, Store.find? p Property.reports.key = some e ∧ e.held = .models ms := by
  obtain ⟨e, he, hms⟩ := Option.bind_eq_some_iff.mp h
  obtain ⟨hmem, hkey⟩ := Store.find?_eq_some he
  refine ⟨e, he, ?_⟩
  rcases admits_of_key_eq hp hmem hkey with hheld | ⟨ns, hheld⟩ <;> rw [hheld] at hms ⊢ <;>
    cases hms
  rfl

/-- Whatever is changed below a profile, the entries on the way there are marked. -/
theorem Since.editAt {β : Type} {f : Profile → β × Profile}
    (hf : ∀ p base, Since p base → Since (f p).2 base) (hops : List Hop) {p : Profile} {base : Json}
    (h : Since p base) : Since (editAt f hops p).2 base := by
  induction hops generalizing p base with
  | nil => exact hf p base h
  | cons hop hops ih =>
      obtain ⟨members, rfl⟩ := h.object
      obtain ⟨-, -, hp, -, -, hentries⟩ := since_object_iff.mp h
      cases hop with
      | manager =>
          rw [Profile.editAt]
          cases hm : heldManager? p with
          | none => exact h
          | some m =>
              obtain ⟨e, he, hheld⟩ := exists_of_heldManager? hp hm
              obtain ⟨hmem, hkey⟩ := Store.find?_eq_some he
              obtain ⟨base, hbase, hsince⟩ : HeldSince e.dirty (.model m) _ :=
                hheld ▸ hkey ▸ hentries e hmem
              show Since (Profile.touch p .manager
                (·.mapModel? fun _ => (Profile.editAt f hops m).2)) _
              refine h.touch he fun held hf => ?_
              rw [hheld] at hf
              cases hf
              exact ⟨.inr ⟨_, rfl⟩, base, hbase, ih hsince⟩
      | report i =>
          rw [Profile.editAt]
          cases hms : heldReports? p with
          | none => exact h
          | some ms =>
              obtain ⟨e, he, hheld⟩ := exists_of_heldReports? hp hms
              obtain ⟨hmem, hkey⟩ := Store.find?_eq_some he
              obtain ⟨bases, hbases, hsince⟩ : HeldSince e.dirty (.models ms) _ :=
                hheld ▸ hkey ▸ hentries e hmem
              cases hm : ms[i]? with
              | none =>
                  simp only [hm]
                  refine h.touch he fun held hf => ?_
                  rw [hheld] at hf
                  cases hf
                  exact ⟨.inr ⟨_, rfl⟩, bases, hbases, hsince⟩
              | some m =>
                  simp only [hm]
                  refine h.touch he fun held hf => ?_
                  rw [hheld] at hf
                  cases hf
                  exact ⟨.inr ⟨_, rfl⟩, bases, hbases, hsince.set hm fun base hb => ih hb⟩

theorem Since.run {p : Profile} {base : Json} (h : Since p base) (e : Edit) :
    Since (e.run p) base :=
  Since.editAt (fun _ _ hq => hq.set e.isText e.text) e.hops h

theorem Since.foldl_run {p : Profile} {base : Json} (h : Since p base) (edits : List Edit) :
    Since (edits.foldl (fun q e => e.run q) p) base := by
  induction edits generalizing p with
  | nil => exact h
  | cons e edits ih => exact ih (h.run e)

/-! ### Laying changes over the document -/

theorem same_overlayItems {ms : List Store} {bases vs : List Json} (hs : ModelsSince ms bases)
    (hu : ModelsUpdate ms vs)
    (ih : ∀ m ∈ ms, ∀ base v, Since m base → Updates m v →
      Json.Same m.contents (Json.overlay base v)) :
    Json.Same (.array (Store.contentsEach ms)) (Json.overlay (.array bases) (.array vs)) := by
  rw [modelsSince_iff] at hs
  rw [modelsUpdate_iff] at hu
  rw [Json.overlay, if_pos (hs.length_eq.symm.trans hu.length_eq)]
  refine Json.same_array ?_
  induction hs generalizing vs with
  | nil =>
      cases hu
      exact .nil
  | cons hm _ ihms =>
      obtain ⟨ihm, ihrest⟩ := List.forall_mem_cons.mp ih
      cases hu with
      | cons hv hvs => exact .cons (ihm _ _ hm hv) (ihms hvs ihrest)

/-- A changed entry: what is written of it, laid over what was there, if anything was. -/
theorem same_of_changed {d : Bool} {held : Held Store} {base? : Option Json} {v : Json}
    (hs : HeldSince d held base?) (hu : HeldUpdate held v)
    (ih : ∀ m ∈ held.nested, ∀ base v, Since m base → Updates m v →
      Json.Same m.contents (Json.overlay base v)) :
    Json.Same (Store.contentsHeld held) (base?.elim v fun base => Json.overlay base v) := by
  cases held with
  | null =>
      obtain rfl : v = .null := hu
      rcases base? with _ | (_ | _ | _ | _ | _ | _) <;> rfl
  | scalar k x =>
      cases k with
      | string =>
          obtain rfl : v = .string x := hu
          rcases base? with _ | (_ | _ | _ | _ | _ | _) <;> rfl
      | _ => exact hu.elim
  | model m =>
      obtain ⟨base, rfl, hm⟩ := hs
      exact ih m (List.mem_singleton_self m) base v hm hu
  | models ms =>
      obtain ⟨bases, rfl, hms⟩ := hs
      obtain ⟨vs, rfl, hvs⟩ := hu
      exact same_overlayItems hms hvs ih
  | plain m | strings l => exact hu.elim

/-- An entry that has not changed is as it was. -/
theorem same_of_unchanged {e : Entry Store} {base? : Option Json}
    (hs : HeldSince e.dirty e.held base?) (hc : Store.changed e = false)
    (ih : ∀ m ∈ e.held.nested, ∀ base v, Since m base → Updates m v →
      Json.Same m.contents (Json.overlay base v)) :
    ∃ base, base? = some base ∧ Json.Same (Store.contentsHeld e.held) base := by
  obtain ⟨hdirty, hlinked⟩ : e.dirty = false ∧ ∀ m ∈ e.held.linked, ¬ Store.Marked m := by
    simpa using mt Store.changed_iff.mpr (Bool.eq_false_iff.mp hc)
  -- Nothing is written of a profile below that has no changes.
  have hsame (m : Store) (hm : m ∈ e.held.linked) (base : Json) (hbase : Since m base) :
      Json.Same m.contents base := by
    have hclean := Store.dirtyKeys_eq_nil_iff.mpr (hlinked m hm)
    obtain ⟨members, rfl⟩ := hbase.object
    exact ih m (Held.linked_subset_nested _ hm) _ (.object []) hbase
      ((updates_of_clean_iff hclean).mpr rfl)
  generalize e.held = held at hs hsame
  rw [hdirty] at hs
  cases held with
  | null => exact ⟨_, hs.resolve_left (by decide), rfl⟩
  | scalar k x =>
      cases k with
      | string => exact ⟨_, hs.resolve_left (by decide), rfl⟩
      | _ => exact hs.elim
  | model m =>
      obtain ⟨base, hbase, hm⟩ := hs
      exact ⟨base, hbase, hsame m (List.mem_singleton_self m) base hm⟩
  | models ms =>
      obtain ⟨bases, hbases, hms⟩ := hs
      exact ⟨_, hbases, Store.same_contentsEach hsame (modelsSince_iff.mp hms)⟩
  | plain m | strings l => exact hs.elim

/-- The changes since a document, laid over it, give what is held now. -/
theorem same_overlay {p : Store} {base v : Json} (hs : Since p base) (hu : Updates p v) :
    Json.Same p.contents (Json.overlay base v) := by
  induction p using Store.induct generalizing base v with
  | step p ih =>
      obtain ⟨members, rfl⟩ := hs.object
      obtain ⟨-, -, hp, hnodup, hsub, hheld⟩ := since_object_iff.mp hs
      obtain ⟨changes, rfl, hperm, hentries⟩ := updates_iff.mp hu
      have hdirty : p.dirtyKeys.Nodup := hp.nodup.sublist (List.filter_sublist.map _)
      have hchanges : changes.keys.Nodup := hperm.nodup_iff.mpr hdirty
      rw [Store.contents_eq, Json.overlay]
      refine Json.same_object (by rw [Store.keys_contents]; exact hp.nodup)
        (Json.nodup_keys_overlayMembers hnodup changes) ?_ ?_
      · intro key hkey
        rw [Store.keys_contents]
        rcases (Json.mem_keys_overlayMembers hchanges).mp hkey with hkey | hkey
        · exact hsub hkey
        · obtain ⟨e, he, rfl⟩ := List.mem_map.mp (hperm.mem_iff.mp hkey)
          exact List.mem_map_of_mem (List.mem_filter.mp he).1
      · intro m hm
        obtain ⟨e, he, rfl⟩ := List.mem_map.mp hm
        rw [Json.get?_overlayMembers hchanges]
        cases hc : Store.changed e with
        | true =>
            obtain ⟨u, hget, hu⟩ := hentries e he hc
            exact ⟨_, by rw [hget], same_of_changed (hheld e he) hu
              fun m hm base v => ih e he m hm⟩
        | false =>
            have hnone : changes.get? e.key = none := by
              rw [Members.get?_eq_none_iff]
              intro hkey
              obtain ⟨f, hf, hfk⟩ := List.mem_map.mp (hperm.mem_iff.mp hkey)
              obtain ⟨hfmem, hfc⟩ := List.mem_filter.mp hf
              obtain rfl := Store.eq_of_key_eq hp.nodup hfmem he hfk
              rw [hc] at hfc
              cases hfc
            rw [hnone]
            exact same_of_unchanged (hheld e he) hc fun m hm base v => ih e he m hm

/-- No update is lost. A profile is loaded between layers that keep stores in step, and any number
of texts are edited, of the profile itself and of profiles below it. What is written then, laid over
all that was loaded, is all that the profile holds now, up to the order of members. -/
theorem same_overlay_of_edits {s t : Serializer} {r : Decoders} {w : Encoders} {m n limit : Nat}
    {source target key key' : String} {content : Bytes} {p : Profile} {log : Log}
    (hs : s.decoders = (Registry.mapAll (Decoder.wrap .changes))^[m + 1] r)
    (hr : r.find source = .ok (key, .json limit))
    (hd : s.discriminators.mapping? .profile = none)
    (ht : t.encoders = (Registry.mapAll (Encoder.wrap .changes))^[n + 1] w)
    (hw : w.find target = .ok (key', .json))
    (hload : (s.deserialize .profile source content Parsable.create).exec = (.ok (some p), log))
    (edits : List Edit) :
    ∃ v, (t.serialize target (edits.foldl (fun q e => e.run q) p)).result =
        .ok ⟨ContentType.json, Bytes.ofString v.text⟩ ∧
      Json.Same (Store.contents (edits.foldl (fun q e => e.run q) p))
        (Json.overlay (Store.contents p) v) := by
  obtain ⟨-, -, -, hsettled⟩ := settled_of_wrapped hs hr hd hload
  have hsince := (since_contents hsettled).foldl_run edits
  obtain ⟨v, hv, hsent⟩ := exists_update_of_wrapped ht hw
    (fun q hq => (hsince.everywhere q hq).1) (fun q hq => (hsince.everywhere q hq).2)
  exact ⟨v, congrArg Sent.result hsent, same_overlay hsince hv⟩

def adaEdits : List Edit := [
  ⟨[], .id, rfl, none⟩,
  ⟨[.manager], .displayName, rfl, some "Grace"⟩,
  ⟨[.report 0], .jobTitle, rfl, some "Analyst"⟩]

theorem same_overlay_of_edits_ada :
    ∃ v, (inStep.serialize ContentType.json (adaEdits.foldl (fun q e => e.run q) ada)).result =
        .ok ⟨ContentType.json, Bytes.ofString v.text⟩ ∧
      Json.Same (Store.contents (adaEdits.foldl (fun q e => e.run q) ada))
        (Json.overlay (Store.contents ada) v) := by
  exact same_overlay_of_edits (m := 0) (n := 0) rfl Decoders.find_stock_json rfl rfl
    Encoders.find_stock_json deserialize_ada adaEdits

end Profile

end Marshal
