import Marshal.Proofs.Profile.Loading
import Marshal.Proofs.Trace.Reading
import Marshal.Proofs.Trace.Writing

/-!
Profiles between layers that only record: the pieces that a profile is written in, and the members
that are read as profiles.
-/

namespace Marshal

namespace Profile

open Writing

theorem sizeOf_nested_lt {p : Store} {e : Entry Store} (he : e ∈ p.entries) {m : Store}
    (hm : m ∈ e.held.nested) : sizeOf m < sizeOf p := by
  obtain ⟨i, o, es⟩ := p
  have hentry : sizeOf e < sizeOf es := List.sizeOf_lt_of_mem he
  have hheld : sizeOf m < sizeOf e.held := by
    cases hh : e.held with
    | plain m' | model m' =>
        rw [hh] at hm
        obtain rfl := List.mem_singleton.mp hm
        simp
    | models ms =>
        rw [hh] at hm
        have hmem : sizeOf m < sizeOf ms := List.sizeOf_lt_of_mem hm
        rw [Held.models.sizeOf_spec]
        omega
    | null | scalar _ _ | strings _ =>
        rw [hh] at hm
        cases hm
  obtain ⟨key, dirty, held⟩ := e
  rw [Entry.mk.sizeOf_spec] at hentry
  rw [Store.mk.sizeOf_spec]
  have hle : sizeOf m < sizeOf held := hheld
  omega

theorem sizeOf_manager_lt {p m : Profile} (h : manager? p = some m) : sizeOf m < sizeOf p := by
  obtain ⟨e, he, hm⟩ := nested_of_manager? h
  exact sizeOf_nested_lt he hm

theorem sizeOf_report_lt {p m : Profile} {ms : List Profile} (h : reports? p = some ms)
    (hm : m ∈ ms) : sizeOf m < sizeOf p := by
  obtain ⟨e, he, hm⟩ := nested_of_reports? h hm
  exact sizeOf_nested_lt he hm

/-! ### Writing -/

def textPiece (p : Profile) (property : Property) : Piece :=
  .script [.ok (.string (some property.key) (text? p property))]

def reportPieces : Option (List Piece) → List Piece
  | none => []
  | some pieces =>
    .script [.ok (.startCollection (some Property.reports.key))] ::
      (pieces ++ [.script [.ok .endCollection]])

def nullPieces (p : Profile) : List Piece :=
  (Store.nulledKeys p).map fun key => .script [.ok (.null (some key))]

/-- A profile is an object, and so are the manager and every report that its store shows. -/
def piece (key : Option String) (p : Profile) : Piece :=
  .object key (glance p)
    (textPiece p .id :: textPiece p .displayName :: textPiece p .jobTitle ::
      (((manager? p).attach.map fun m => piece (some Property.manager.key) m.1).toList ++
        (reportPieces ((reports? p).attach.map fun ms => ms.1.attach.map fun m => piece none m.1) ++
          nullPieces p)))
termination_by sizeOf p
decreasing_by
  · exact sizeOf_manager_lt m.2
  · exact sizeOf_report_lt ms.2 m.2

theorem piece_eq (key : Option String) (p : Profile) :
    piece key p = .object key (glance p)
      (textPiece p .id :: textPiece p .displayName :: textPiece p .jobTitle ::
        (((manager? p).map (piece (some Property.manager.key))).toList ++
          (reportPieces ((reports? p).map (List.map (piece none))) ++ nullPieces p))) := by
  rw [piece]
  simp

section Writing

variable {ls : List Observer} {p : Profile}

theorem performs_writeText (property : Property) :
    Performs ls (writeText property) p ((textPiece p property).steps ls) :=
  (performs_call _ p).get

theorem performs_writeNulls (keys : List String) :
    Performs ls (writeNulls keys) p
      (Piece.stepsAll ls (keys.map fun key => .script [.ok (.null (some key))])) := by
  induction keys with
  | nil => exact performs_pure p
  | cons key keys ih => exact (performs_call _ p).bind ih

def PerformsPiece (ls : List Observer) (m : Profile) : Prop :=
  ∀ key, WriteM.Performs ls ((outgoing m).write key) (·, m) ((piece key m).steps ls)

theorem performs_writeManager
    (ih : ∀ e ∈ Store.entries p, ∀ m ∈ e.held.nested, PerformsPiece ls m) :
    Performs ls (writeManager (outgoingEntries (Store.entries p))) p
      (Piece.stepsAll ls ((manager? p).map (piece (some Property.manager.key))).toList) := by
  refine Performs.get ?_
  simp only [shown_manager]
  cases hm : manager? p with
  | none => exact performs_pure p
  | some m =>
      obtain ⟨e, he, hme⟩ := nested_of_manager? hm
      have hsteps :
          Piece.stepsAll ls (Option.map (piece (some Property.manager.key)) (some m)).toList =
            (piece (some Property.manager.key) m).steps ls := Piece.stepsAll_singleton ..
      rw [hsteps]
      exact performs_component (ih e he m hme _) (restore_manager hm)

theorem performs_writeReports
    (ih : ∀ e ∈ Store.entries p, ∀ m ∈ e.held.nested, PerformsPiece ls m) :
    Performs ls (writeReports (outgoingEntries (Store.entries p))) p
      (Piece.stepsAll ls (reportPieces ((reports? p).map (List.map (piece none))))) := by
  refine Performs.get ?_
  simp only [shown_reports]
  cases hms : reports? p with
  | none => exact performs_pure p
  | some ms =>
      have heach : ∀ o ∈ ms.map outgoing,
          WriteM.Performs ls (o.write none) (·, o.model) ((piece none o.model).steps ls) := by
        intro o ho
        obtain ⟨m, hm, rfl⟩ := List.mem_map.mp ho
        obtain ⟨e, he, hme⟩ := nested_of_reports? hms hm
        rw [model_outgoing]
        exact ih e he m hme none
      have hlist := Outgoing.performs_writeList (fun o => piece none o.model) heach
        (some Property.reports.key)
      simp only [List.map_map, Function.comp_def, model_outgoing, List.map_id'] at hlist
      exact performs_component hlist (restore_reports hms)

theorem performs_write (hls : ∀ l ∈ ls, l.Records) (p : Profile) : PerformsPiece ls p := by
  induction p using Store.induct with
  | step p ih =>
      intro key
      rw [write_outgoing, piece_eq]
      have hmark : Store.setOnlyChanged (glance p).onlyChanged p = p := by
        cases p
        rfl
      refine performs_object hls key hmark ?_
      rw [Piece.stepsAll, Piece.stepsAll, Piece.stepsAll, Piece.stepsAll_append,
        Piece.stepsAll_append]
      refine (performs_writeText .id).bind ((performs_writeText .displayName).bind
        ((performs_writeText .jobTitle).bind ?_))
      refine (performs_writeManager ih).bind ((performs_writeReports ih).bind ?_)
      exact (performs_writeNulls _).get

end Writing

/-! ### Reading -/

def outline : Outline := ⟨Property.manager.key, Property.reports.key⟩

theorem fits_outline : outline.Fits Profile := by
  intro ls self k hself made p name n hn
  show (Parsable.assign (readers self) p (name, .json n)).Logs _
  rw [assign_eq]
  cases hproperty : Property.ofKey? name with
  | none =>
      refine ReadM.logs_pure (.other ?_ ?_) <;> rintro rfl <;> cases hproperty
  | some property =>
      obtain rfl := Property.key_of_ofKey? hproperty
      cases property with
      | manager => exact ReadM.Logs.map (hself.one hn)
      | reports => exact ReadM.Logs.map (hself.many hn)
      | _ =>
          refine ReadM.logs_ofResult_bind fun _ _ => ReadM.logs_pure (.other ?_ ?_) <;> decide

end Profile

end Marshal
