import Marshal.Proofs.Profile.Writing
import Marshal.Proofs.Writing.Form

/-!
Profiles that a format refuses. The mark that a store returns only changed values is taken off at
the end of an object; an object that never ends keeps it, and so does everything around it.
-/

namespace Marshal

namespace Profile

open Writing WriteM

/-! ### The mark of the root -/

/-- The step leaves it to others what the store of the model returns. -/
def KeepsFlag (w : Writing Profile Unit) : Prop :=
  ∀ p o, (w.runAt p o).1.2.onlyChanged = p.onlyChanged

theorem keepsFlag_pure : KeepsFlag (pure ()) := fun _ _ => rfl

theorem keepsFlag_call (c : Call) : KeepsFlag (call c) := fun _ _ => rfl

theorem keepsFlag_component {β : Type} (act : WriteM (Result Unit × β))
    {back : β → Profile → Profile} (h : ∀ b p, (back b p).onlyChanged = p.onlyChanged) :
    KeepsFlag (component act back) := by
  intro p o
  rw [runAt_component]
  exact h _ p

theorem KeepsFlag.get {f : Profile → Writing Profile Unit} (h : ∀ p, KeepsFlag (f p)) :
    KeepsFlag (get >>= f) := by
  intro p o
  rw [runAt_bind_ok (runAt_get p o)]
  exact h p p o

theorem KeepsFlag.bind {w w' : Writing Profile Unit} (h : KeepsFlag w) (h' : KeepsFlag w') :
    KeepsFlag (w >>= fun _ => w') := by
  intro p o
  have hw := h p o
  rw [runAt_bind]
  rcases hr : w.runAt p o with ⟨⟨r, q⟩, o'⟩
  rw [hr] at hw
  cases r with
  | error e => exact hw
  | ok _ => exact (h' q o').trans hw

theorem keepsFlag_writeNulls (keys : List String) : KeepsFlag (writeNulls keys) := by
  induction keys with
  | nil => exact keepsFlag_pure
  | cons key keys ih => exact (keepsFlag_call _).bind ih

theorem keepsFlag_writeFields (es : List (Entry (Outgoing Store))) :
    KeepsFlag (writeFields es) := by
  have htext (property : Property) : KeepsFlag (writeText property) :=
    KeepsFlag.get fun _ => keepsFlag_call _
  have hmanager : KeepsFlag (writeManager es) := by
    apply KeepsFlag.get
    intro p
    split
    · exact keepsFlag_component _ fun _ _ => Store.onlyChanged_restore ..
    · exact keepsFlag_pure
  have hreports : KeepsFlag (writeReports es) := by
    apply KeepsFlag.get
    intro p
    split
    · exact keepsFlag_component _ fun _ _ => Store.onlyChanged_restore ..
    · exact keepsFlag_pure
  exact (htext _).bind <| (htext _).bind <| (htext _).bind <| hmanager.bind <| hreports.bind <|
    KeepsFlag.get fun _ => keepsFlag_writeNulls _

def KeepsFlagOnError (w : Writing Profile Unit) : Prop :=
  ∀ p o e p' o', w.runAt p o = ((.error e, p'), o') → p'.onlyChanged = p.onlyChanged

theorem KeepsFlag.bind_onError {w w' : Writing Profile Unit} (h : KeepsFlag w)
    (h' : KeepsFlagOnError w') : KeepsFlagOnError (w >>= fun _ => w') := by
  intro p o e p' o' hrun
  have hw := h p o
  rw [runAt_bind] at hrun
  rcases hr : w.runAt p o with ⟨⟨r, q⟩, o''⟩
  rw [hr] at hrun hw
  cases r with
  | error e' =>
      obtain ⟨⟨-, rfl⟩, -⟩ : (_ ∧ q = p') ∧ _ := by simpa using hrun
      exact hw
  | ok _ => exact (h' q o'' e p' o' hrun).trans hw

/-- A profile whose writing ends in an error is left returning only changed values. -/
theorem onlyChanged_of_error {layers : List Layer} (hq : Layer.Quiet layers) (hne : layers ≠ [])
    {p p' : Profile} {o o' : Output} (ho : o.layers = layers) {key : Option String} {e : Error}
    (h : ((outgoing p).write key).run o = ((.error e, p'), o')) : p'.onlyChanged = true := by
  subst ho
  rw [write_outgoing, run_exec, write, object,
    runAt_bind_ok (runAt_observe hq .before glance Store.setOnlyChanged p), seen_before hne] at h
  -- No step before the last takes the mark off, and the last one does not fail.
  have hlast : KeepsFlagOnError (discard (observe .after glance Store.setOnlyChanged)) := by
    intro q o e q' o' hrun
    cases hrun
  have hsteps (g : Glance) : KeepsFlagOnError (do
      call (.startObject key .model)
      (liftM (Output.startAll g) : StateT Profile WriteM Unit)
      writeFields (outgoingEntries p.entries)
      call .endObject
      discard (observe .after glance Store.setOnlyChanged)) :=
    (keepsFlag_call _).bind_onError <| KeepsFlag.bind_onError (fun _ _ => rfl) <|
      (keepsFlag_writeFields _).bind_onError <| (keepsFlag_call _).bind_onError hlast
  have hkept := hsteps _ _ _ _ _ _ h
  rwa [Store.onlyChanged_setOnlyChanged] at hkept

/-! ### Forms -/

section Form

variable {layers : List Layer} {p : Profile}

theorem fills_writeText (property : Property) : Fills layers (writeText property) p p := by
  refine Fills.get (fills_call ?_ p)
  intro d hd
  cases hs : text? p property with
  | none => exact ⟨d, hd, rfl⟩
  | some s => exact hd.put property.key s

theorem fills_writeNulls (keys : List String) : Fills layers (writeNulls keys) p p := by
  induction keys with
  | nil => exact fills_pure p
  | cons key keys ih =>
      have hnull : Fills layers (call (.null (some key))) p p :=
        fills_call (c := .null (some key)) (fun d hd => hd.put key _) p
      exact hnull.bind ih

/-- A form takes no profile below its root. -/
theorem refused_outgoing (hq : Layer.Quiet layers) (m : Store) (key : Option String)
    {d : FormDraft} (hd : d.inRoot = true) (log : Log) :
    (((outgoing m).write key).run ⟨.form d, layers, log⟩).1.1 =
      .error (.unsupported .nestedFormObject) := by
  have hstart := AnyDraft.startObject_form hd key .model
  rw [write_outgoing, run_exec, write, runAt_object_refused (by exact hq) _ _ _ _ _ hstart]

/-- The store shows no profile: no manager, and no reports unless the list is empty. -/
def Flat (p : Profile) : Prop :=
  manager? p = none ∧ (reports? p).getD [] = []

theorem fills_writeManager (h : manager? p = none) :
    Fills layers (writeManager (outgoingEntries p.entries)) p p := by
  refine Fills.get ?_
  simp only [shown_manager, h]
  exact fills_pure p

theorem refused_writeManager (hq : Layer.Quiet layers) {m : Store} (h : manager? p = some m) :
    Refused layers (writeManager (outgoingEntries p.entries)) p := by
  refine Refused.get ?_
  simp only [shown_manager, h]
  exact refused_component (fun d log hd => ⟨_, refused_outgoing hq m _ hd.root log⟩) _ p

theorem fills_writeReports (h : (reports? p).getD [] = []) :
    Fills layers (writeReports (outgoingEntries p.entries)) p p := by
  refine Fills.get ?_
  simp only [shown_reports]
  cases hr : reports? p with
  | none => exact fills_pure p
  | some ms =>
      rw [hr] at h
      obtain rfl : ms = [] := h
      -- An empty list is started and ended, and neither end writes anything.
      intro d log hd
      refine ⟨{ d with collection := none }, ⟨hd.root, rfl⟩, ?_⟩
      have hrun : (Outgoing.writeList (some Property.reports.key) ([] : List (Outgoing Store))).run
          ⟨.form d, layers, log⟩ =
          ((.ok (), []), ⟨.form { d with collection := none }, layers, log⟩) := by
        rw [Outgoing.writeList, run_bind_of (Output.run_startCollection_form hd.collection ..)]
        rfl
      simp only [Option.map_some, List.map_nil]
      rw [runAt_component, hrun, restore_reports hr]

theorem refused_writeReports (hq : Layer.Quiet layers) {m : Store} {ms : List Store}
    (h : reports? p = some (m :: ms)) :
    Refused layers (writeReports (outgoingEntries p.entries)) p := by
  refine Refused.get ?_
  simp only [shown_reports, h]
  refine refused_component (fun d log hd => ⟨.unsupported .nestedFormObject, ?_⟩) _ p
  -- Starting the list leaves the form in its root, and the first report is an object there.
  have hfirst := refused_outgoing hq m none
    (d := { d with collection := some Property.reports.key }) hd.root log
  rcases hrun : ((outgoing m).write none).run
    ⟨.form { d with collection := some Property.reports.key }, layers, log⟩ with ⟨⟨r, b⟩, o⟩
  rw [hrun] at hfirst
  obtain rfl : r = _ := hfirst
  rw [List.map_cons, Outgoing.writeList,
    run_bind_of (Output.run_startCollection_form hd.collection ..)]
  have heach : (Outgoing.writeEach (outgoing m :: ms.map outgoing)).run
      ⟨.form { d with collection := some Property.reports.key }, layers, log⟩ =
      ((.error (.unsupported .nestedFormObject), b :: (ms.map outgoing).map (·.model)), o) := by
    rw [Outgoing.writeEach, run_bind_of hrun]
    rfl
  exact congrArg (fun x : (Result Unit × List Store) × Output => x.1.1) (run_bind_of heach _)

theorem fills_writeFields (h : Flat p) :
    Fills layers (writeFields (outgoingEntries p.entries)) p p :=
  (fills_writeText _).bind <| (fills_writeText _).bind <| (fills_writeText _).bind <|
    (fills_writeManager h.1).bind <| (fills_writeReports h.2).bind <|
      Fills.get (fills_writeNulls _)

theorem refused_writeFields (hq : Layer.Quiet layers) (h : ¬ Flat p) :
    Refused layers (writeFields (outgoingEntries p.entries)) p := by
  refine (fills_writeText _).bind_refused <| (fills_writeText _).bind_refused <|
    (fills_writeText _).bind_refused ?_
  cases hm : manager? p with
  | some m => exact (refused_writeManager hq hm).bind _
  | none =>
      refine (fills_writeManager hm).bind_refused ?_
      cases hr : reports? p with
      | none => exact absurd ⟨hm, by rw [hr]; rfl⟩ h
      | some ms =>
          cases ms with
          | nil => exact absurd ⟨hm, by rw [hr]; rfl⟩ h
          | cons m ms => exact (refused_writeReports hq hr).bind _

/-- A flat profile is the object of a form, and the writing leaves it as it was. -/
theorem run_form_of_flat (hq : Layer.Quiet layers) (hne : layers ≠ [])
    (hroot : p.onlyChanged = false) (h : Flat (p.setOnlyChanged true)) :
    ∃ o, ((outgoing p).write none).run ⟨.form {}, layers, []⟩ = ((.ok (), p), o) := by
  have hfills : Fills layers (writeFields (outgoingEntries (p.setOnlyChanged true).entries))
      (p.setOnlyChanged true) (p.setOnlyChanged true) := fills_writeFields h
  obtain ⟨d, hd, hfields⟩ := hfills { inRoot := true } [] ⟨rfl, rfl⟩
  rw [Store.entries_setOnlyChanged] at hfields
  have hend : Draft.call .endObject (AnyDraft.form d) =
      (.ok (), .form { d with inRoot := false }) := by
    rw [AnyDraft.call_form, FormDraft.call, FormDraft.endObject, if_pos hd.root]
  have hbody : (writeFields (outgoingEntries p.entries)).runAt
      (p.setOnlyChanged (Layer.seen layers .before (glance p)).onlyChanged)
      ⟨.form { inRoot := true }, layers, []⟩ =
        ((.ok (), p.setOnlyChanged true), ⟨.form d, layers, []⟩) := by
    rw [seen_before hne]
    exact hfields
  have hrun := runAt_object_ok (o := ⟨.form {}, layers, []⟩) (by exact hq) none .model glance
    Store.setOnlyChanged rfl hbody rfl hend
  rw [write_outgoing, run_exec, write, hrun, seen_after hne, Store.setOnlyChanged_setOnlyChanged,
    Store.setOnlyChanged_self hroot]
  exact ⟨_, rfl⟩

theorem run_form_of_not_flat (hq : Layer.Quiet layers) (hne : layers ≠ [])
    (h : ¬ Flat (p.setOnlyChanged true)) :
    ∃ e p' o, ((outgoing p).write none).run ⟨.form {}, layers, []⟩ = ((.error e, p'), o) := by
  obtain ⟨e, p', o, hfields⟩ := refused_writeFields hq h { inRoot := true } [] ⟨rfl, rfl⟩
  rw [Store.entries_setOnlyChanged] at hfields
  have hrun := runAt_object_failed (o := ⟨.form {}, layers, []⟩) (by exact hq) none .model glance
    Store.setOnlyChanged (a := p) rfl (by simp only [seen_before hne]; exact hfields)
  rw [write_outgoing, run_exec, write, hrun]
  exact ⟨e, p', o, rfl⟩

end Form

/-! ### All formats -/

def Accepts (p : Profile) : Encoder.Format → Prop
  | .json => True
  | .form => Flat (p.setOnlyChanged true)
  | _ => False

/-- The writing of a profile to an empty payload: an accepted one is left as it was, and one that is
not ends in an error. -/
theorem run_of_format {layers : List Layer} (hq : Layer.Quiet layers) (hne : layers ≠ [])
    {p : Profile} (hu : Unfiltered p) {e : Encoder}
    (hstock : ∃ key, (key, e) ∈ Encoders.stock.entries) (key : String) :
    (Accepts p e.format →
      ∃ o, ((outgoing p).write none).run ⟨e.format.draft key, layers, []⟩ = ((.ok (), p), o)) ∧
    (¬ Accepts p e.format → ∃ err p' o,
      ((outgoing p).write none).run ⟨e.format.draft key, layers, []⟩ = ((.error err, p'), o)) := by
  have hrefused {d : AnyDraft} {err : Error}
      (hstart : Draft.call (.startObject none .model) d = (.error err, d)) :
      ∃ err p' o, ((outgoing p).write none).run ⟨d, layers, []⟩ = ((.error err, p'), o) := by
    rw [write_outgoing, run_exec, write,
      runAt_object_refused (o := ⟨d, layers, []⟩) hq _ _ _ _ _ hstart]
    exact ⟨_, _, _, rfl⟩
  -- Multipart bodies and plain text refuse the object itself; a form may refuse what is in it.
  obtain ⟨k, he⟩ := hstock
  simp only [Encoders.stock, List.mem_cons, Prod.mk.injEq, List.not_mem_nil, or_false] at he
  rcases he with ⟨-, rfl⟩ | ⟨-, rfl⟩ | ⟨-, rfl⟩ | ⟨-, rfl⟩
  · refine ⟨fun _ => ?_, fun h => absurd trivial h⟩
    obtain ⟨v, -, hputs⟩ := putsUpdate hq hne p hu
    exact ⟨_, hputs none {} _ [] rfl⟩
  · exact ⟨False.elim, fun _ => hrefused rfl⟩
  · exact ⟨run_form_of_flat hq hne hu.root, run_form_of_not_flat hq hne⟩
  · exact ⟨False.elim, fun _ => hrefused rfl⟩

/-- Behind layers that keep stores in step, a profile is filtered after a call exactly if the format
that was found for it does not accept it; otherwise it is as it was before, and so it is after every
call that succeeds. -/
theorem unfiltered_serialize_iff (n : Nat) {s : Serializer}
    (hs : s.encoders = (Registry.mapAll (Encoder.wrap .changes))^[n + 1] Encoders.stock)
    (contentType : String) {p : Profile} (hu : Unfiltered p) :
    (Unfiltered (s.serialize contentType p).model ↔
      ∀ key e, Encoders.stock.find contentType = .ok (key, e) → Accepts p e.format) ∧
    (Unfiltered (s.serialize contentType p).model → (s.serialize contentType p).model = p) ∧
    (∀ payload, (s.serialize contentType p).result = .ok payload →
      (s.serialize contentType p).model = p) := by
  have hlayers := Encoders.find_iterate_mapAll (n + 1) Encoders.stock contentType
  rw [← hs] at hlayers
  cases hfind : Encoders.stock.find contentType with
  | error e =>
      rw [hfind] at hlayers
      obtain ⟨e, ho⟩ := Serializer.output_of_find_error hlayers
      have hsent := Serializer.send_of_output_error ho p Writable.payloadType?
        ((Writable.outgoing p).write none)
      have hmodel : (s.serialize contentType p).model = p := congrArg Sent.model hsent
      simp [hmodel, hu]
  | ok found =>
      obtain ⟨key, e⟩ := found
      have hnil : e.layers = [] := Encoders.layers_of_find_stock hfind
      rw [hfind] at hlayers
      have ho := Serializer.output_of_find hlayers
      have hquiet := Layer.quiet_replicate (n + 1)
      obtain ⟨hok, hfail⟩ := run_of_format hquiet (by simp) hu
        ⟨key, Registry.mem_of_find hfind⟩ key
      simp only [Encoder.output, hnil, List.append_nil] at ho
      by_cases ha : Accepts p e.format
      · obtain ⟨o, hrun⟩ := hok ha
        have hmodel : (s.serialize contentType p).model = p :=
          Serializer.model_send_of_ok ho hrun p _
        simp [hmodel, hu, ha]
      · -- The mark was set before the first step that can fail, and an error leaves it there.
        obtain ⟨err, p', o, hrun⟩ := hfail ha
        have hsent : s.serialize contentType p = ⟨.error err, p', o.log⟩ :=
          Serializer.send_of_error ho hrun p _
        have hfiltered : ¬ Unfiltered p' := fun h => by
          have hon := onlyChanged_of_error hquiet (by simp) rfl hrun
          rw [h.root] at hon
          cases hon
        simp [hsent, hfiltered, ha]

def loaded : Profile :=
  ⟨true, false, [⟨"id", false, .scalar .string "u1"⟩]⟩

/-- A form takes it. -/
theorem unfiltered_serialize_iff_loaded :
    Unfiltered loaded ∧
      Unfiltered (({ encoders := (Registry.mapAll (Encoder.wrap .changes))^[1] Encoders.stock } :
        Serializer).serialize ContentType.form loaded).model := by
  have hu : Unfiltered loaded := by
    simp [Unfiltered, loaded, Held.nested]
  refine ⟨hu, (unfiltered_serialize_iff 0 rfl ContentType.form hu).1.mpr fun key e hfind => ?_⟩
  have hform : Encoders.stock.find ContentType.form = .ok (ContentType.form, .form) := rfl
  obtain ⟨-, rfl⟩ : _ ∧ Encoder.form = e := by simpa [hform] using hfind
  exact ⟨rfl, rfl⟩

/-- Plain text takes no objects, and what is left of a profile hides its properties. -/
theorem serialize_text_filters_loaded :
    ¬ ∀ (s : Serializer) (contentType : String) (p : Profile),
      s.encoders = Encoders.stock.mapAll (Encoder.wrap .changes) → IsProfile p → Unfiltered p →
        Unfiltered (s.serialize contentType p).model := by
  intro h
  have hp : IsProfile loaded := by
    simp [IsProfile, loaded, Held.nested, proper_iff, Store.allKeys, Property.exists_iff,
      Property.key, Property.Admits]
  have hu : Unfiltered loaded := by
    simp [Unfiltered, loaded, Held.nested]
  have hafter := h { encoders := Encoders.stock.mapAll (Encoder.wrap .changes) }
    ContentType.plainText loaded rfl hp hu
  have hon : Store.onlyChanged (({ encoders := Encoders.stock.mapAll (Encoder.wrap .changes) } :
      Serializer).serialize ContentType.plainText loaded).model = true := rfl
  rw [hafter.root] at hon
  cases hon

end Profile

end Marshal
