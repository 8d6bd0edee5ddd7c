import Marshal.Proofs.Employee.Reading
import Marshal.Proofs.Trace.Reading
import Marshal.Proofs.Trace.Writing

/-!
Employees between layers that only record: the pieces that an employee is written in, and the
members that are read as employees.
-/

namespace Marshal

namespace Employee

open Writing

mutual

/-- An employee is an object, and so are the manager and every colleague, in that order. -/
def piece (key : Option String) : Employee → Piece
  | ⟨particulars, manager, colleagues, additional⟩ =>
    .object key { extra := some additional.length }
      (.script (Field.scripts Particulars.fields particulars) ::
        (managerPieces manager ++ (colleaguePieces colleagues ++ [.additional additional])))

def managerPieces : Option Employee → List Piece
  | none => []
  | some m => [m.piece (some "manager")]

def colleaguePieces : Option (List Employee) → List Piece
  | none => []
  | some es =>
    .script [.ok (.startCollection (some "colleagues"))] ::
      (eachPiece es ++ [.script [.ok .endCollection]])

def eachPiece : List Employee → List Piece
  | [] => []
  | e :: es => e.piece none :: eachPiece es

end

section Writing

variable {ls : List Observer}

mutual

theorem performs_write (hls : ∀ l ∈ ls, l.Records) :
    ∀ (e : Employee) (key : Option String),
      Performs ls (e.write key) () ((e.piece key).steps ls)
  | ⟨particulars, manager, colleagues, additional⟩, key => by
      rw [write, piece]
      refine performs_object hls key rfl ?_
      rw [Piece.stepsAll, Piece.stepsAll_append, Piece.stepsAll_append, Piece.stepsAll_singleton]
      refine (performs_script _ ()).bind ((performs_writeManager hls manager).bind ?_)
      exact (performs_writeColleagues hls colleagues).bind (performs_additional additional ())

theorem performs_writeManager (hls : ∀ l ∈ ls, l.Records) :
    ∀ manager : Option Employee,
      Performs ls (writeManager manager) () (Piece.stepsAll ls (managerPieces manager))
  | none => performs_pure ()
  | some m => by
      rw [writeManager, managerPieces, Piece.stepsAll_singleton]
      exact performs_write hls m (some "manager")

theorem performs_writeColleagues (hls : ∀ l ∈ ls, l.Records) :
    ∀ colleagues : Option (List Employee),
      Performs ls (writeColleagues colleagues) () (Piece.stepsAll ls (colleaguePieces colleagues))
  | none => performs_pure ()
  | some es => by
      rw [writeColleagues, colleaguePieces, Piece.stepsAll, Piece.stepsAll_append,
        Piece.stepsAll_singleton]
      exact (performs_call _ ()).bind ((performs_writeEach hls es).bind (performs_call _ ()))

theorem performs_writeEach (hls : ∀ l ∈ ls, l.Records) :
    ∀ es : List Employee, Performs ls (writeEach es) () (Piece.stepsAll ls (eachPiece es))
  | [] => performs_pure ()
  | e :: es => by
      rw [writeEach, eachPiece, Piece.stepsAll]
      exact (performs_write hls e none).bind (performs_writeEach hls es)

end

end Writing

/-! ### Reading -/

def outline : Outline := ⟨"manager", "colleagues"⟩

theorem logs_particular {f : Field Particulars} (n : JsonNode) (e : Employee) {P : Log → Prop}
    (h : P []) :
    ((FieldReaders.lift particularsView f.reader (.json n)).on e).Logs fun _ => P := by
  simp only [FieldReaders.on_lift, particularsView, Field.on_reader]
  exact ReadM.Logs.map (ReadM.logs_ofResult_bind fun _ _ => ReadM.logs_pure h)

theorem fits_outline : outline.Fits Employee := by
  intro ls self k hself made e name n hn
  rw [fieldReaders_eq, Parsable.assign]
  cases hget : (⟨readers self⟩ : FieldReaders Employee).get? name with
  | none =>
      have hname : name ∉ declared := (Members.get?_eq_none_iff (m := readers self)).mp hget
      refine ReadM.logs_pure (.other ?_ ?_) <;> rintro rfl <;> exact hname (by decide)
  | some r =>
      have hmem : (name, r) ∈ readers self := Members.mem_of_get? hget
      rw [readers, List.mem_append] at hmem
      rcases hmem with hmem | hmem
      · obtain ⟨f, hf, heq⟩ := List.mem_map.mp hmem
        cases heq
        have hnames : ∀ f ∈ Particulars.fields, f.name ≠ "manager" ∧ f.name ≠ "colleagues" := by
          decide
        exact logs_particular n e (.other (hnames f hf).1 (hnames f hf).2)
      · simp only [List.mem_cons, Prod.mk.injEq, List.not_mem_nil, or_false] at hmem
        rcases hmem with ⟨rfl, rfl⟩ | ⟨rfl, rfl⟩
        · show ((managerReader self (.json n)).on e).Logs _
          rw [on_managerReader]
          exact ReadM.Logs.map (hself.one hn)
        · show ((colleaguesReader self (.json n)).on e).Logs _
          rw [on_colleaguesReader]
          exact ReadM.Logs.map (hself.many hn)

end Employee

end Marshal
