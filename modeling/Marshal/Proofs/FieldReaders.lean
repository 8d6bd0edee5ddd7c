import Marshal.Models.DirectoryObject
import Marshal.Proofs.Members
import Marshal.Proofs.Reading.Filling

/-!
Readers of components, and sets of readers that are joined. Lifted readers do to a model what they
do to its component, and of two sets the second one counts where both have a name.
-/

namespace Marshal

namespace Projection.Lawful

variable {α β : Type} {p : Projection α β} {a : α} {b : β}

/-- Nothing but the component changes: putting the old one back undoes it. -/
theorem set_back (hp : p.Lawful) (h : p.get? a = some b) (b' : β) : p.set b (p.set b' a) = a := by
  rw [hp.set_set, hp.set_get? a b h]

theorem get?_set_of_some (hp : p.Lawful) (h : p.get? a = some b) (b' : β) :
    p.get? (p.set b' a) = some b' :=
  hp.get?_set a b' (Option.isSome_of_eq_some h)

end Projection.Lawful

namespace FieldReaders

variable {α β : Type}

def readMember (rs : FieldReaders α) (m : String × Node) : FillM α Unit :=
  match rs.get? m.1 with
  | some r => r m.2
  | none => return

/-- Reads members in their order, up to the first that fails. -/
def readMembers (rs : FieldReaders α) (ms : Members Node) : FillM α Unit :=
  ms.forM rs.readMember

section

variable (rs : FieldReaders α) {m : String × Node}

theorem has_eq_isSome (key : String) : rs.has key = (rs.get? key).isSome := by
  rw [Bool.eq_iff_iff, has, Members.has_iff_get?, Option.isSome_iff_exists, get?]

theorem readMembers_cons (m : String × Node) (ms : Members Node) :
    rs.readMembers (m :: ms) = rs.readMember m >>= fun _ => rs.readMembers ms := rfl

theorem readMember_of_not_has (h : rs.has m.1 = false) : rs.readMember m = pure () := by
  rw [has_eq_isSome, Option.isSome_eq_false_iff, Option.isNone_iff_eq_none] at h
  rw [readMember, h]

theorem fillMember_of_has [Parsable α] (h : rs.has m.1 = true) :
    Parsable.fillMember rs m = rs.readMember m := by
  rw [has_eq_isSome, Option.isSome_iff_exists] at h
  obtain ⟨r, hr⟩ := h
  rw [Parsable.fillMember, readMember, hr]

/-- A model is filled in by its readers, apart from the members that have none. -/
theorem forM_fillMember [Parsable α] (ms : Members Node) :
    (ms.filter fun m => rs.has m.1).forM (Parsable.fillMember rs) = rs.readMembers ms := by
  induction ms with
  | nil => rfl
  | cons m ms ih =>
      rw [readMembers_cons]
      cases hhas : rs.has m.1 with
      | false =>
          rw [List.filter_cons_of_neg (by simp [hhas]), ih, readMember_of_not_has rs hhas,
            pure_bind]
      | true =>
          rw [List.filter_cons_of_pos (by simpa using hhas), ← ih, ← fillMember_of_has rs hhas]
          rfl

end

/-! ### A component -/

section

variable {p : Projection α β} (rs : FieldReaders β) {a : α} {b : β}

theorem ending_readMember_project (hp : p.Lawful) (h : p.get? a = some b) (m : String × Node)
    (log : Log) :
    ((rs.project p).readMember m).ending a log =
      ⟨((rs.readMember m).ending b log).result, p.set ((rs.readMember m).ending b log).model a,
        ((rs.readMember m).ending b log).log⟩ := by
  rw [readMember, get?_project, readMember]
  cases rs.get? m.1 with
  | none =>
      show Ending.mk _ a _ = ⟨_, p.set b a, _⟩
      rw [hp.set_get? a b h]
      rfl
  | some r => exact FillM.ending_zoom_of_some h (r m.2) log

theorem ending_readMember_project_of_none (h : p.get? a = none) (m : String × Node) (log : Log) :
    ((rs.project p).readMember m).ending a log = ⟨.ok (), a, log⟩ := by
  rw [readMember, get?_project]
  cases rs.get? m.1 with
  | none => rfl
  | some r => exact FillM.ending_zoom_of_none h (r m.2) log

/-- What has become of the component so far is what the next member meets. -/
theorem ending_readMembers_project (hp : p.Lawful) (h : p.get? a = some b) (ms : Members Node)
    (log : Log) :
    ((rs.project p).readMembers ms).ending a log =
      ⟨((rs.readMembers ms).ending b log).result, p.set ((rs.readMembers ms).ending b log).model a,
        ((rs.readMembers ms).ending b log).log⟩ := by
  induction ms generalizing a b log with
  | nil =>
      show Ending.mk _ a _ = ⟨_, p.set b a, _⟩
      rw [hp.set_get? a b h]
      rfl
  | cons m ms ih =>
      rw [readMembers_cons, readMembers_cons, FillM.ending_bind, FillM.ending_bind,
        ending_readMember_project rs hp h]
      obtain ⟨result, b', log'⟩ := (rs.readMember m).ending b log
      cases result with
      | ok _ =>
          refine (ih (hp.get?_set_of_some h b') log').trans ?_
          rw [hp.set_set]
          rfl
      | error e => rfl

theorem ending_readMembers_project_of_none (h : p.get? a = none) (ms : Members Node) (log : Log) :
    ((rs.project p).readMembers ms).ending a log = ⟨.ok (), a, log⟩ := by
  induction ms with
  | nil => rfl
  | cons m ms ih =>
      rw [readMembers_cons, FillM.ending_bind, ending_readMember_project_of_none rs h]
      exact ih

end

/-! ### Two sets

However a set is built, no name is in it twice; a projection has the names that it is made of
(`keys_project`). -/

theorem nodup_keys_ofList (l : List (String × FieldReader α)) : (ofList l).keys.Nodup :=
  Members.nodup_keys_putAll (m := []) .nil l

theorem nodup_keys_insert {rs : FieldReaders α} (h : rs.keys.Nodup) (key : String)
    (r : FieldReader α) : (rs.insert key r).keys.Nodup :=
  Members.nodup_keys_put h key r

theorem nodup_keys_extend {base : FieldReaders α} (h : base.keys.Nodup) (other : FieldReaders α) :
    (base.extend other).keys.Nodup :=
  Members.nodup_keys_putAll h other.fields

theorem get?_extend (base : FieldReaders α) {other : FieldReaders α} (h : other.keys.Nodup)
    (key : String) : (base.extend other).get? key = (other.get? key).or (base.get? key) :=
  Members.get?_putAll h key

theorem readMember_extend (base : FieldReaders α) {other : FieldReaders α} (h : other.keys.Nodup)
    (m : String × Node) :
    (base.extend other).readMember m =
      if other.has m.1 then other.readMember m else base.readMember m := by
  rw [readMember, get?_extend base h, has_eq_isSome, readMember, readMember]
  cases other.get? m.1 <;> rfl

/-- For every set of readers and all members: lifted to a model that has the component, the readers
end as on the component alone, with what they have made of it put back and the rest of the model as
it was, whether they fail or not and whatever they have changed before they fail; where there is no
component they do nothing. Of two sets that are joined, the second one reads the members for which
it has a reader, and the first one all others. This is how models are filled in, but for members
without a reader. -/
theorem reads_as_parts {p : Projection α β} (hp : p.Lawful) (rs : FieldReaders β) :
    (∀ (ms : Members Node) (a : α) (b : β) (log : Log), p.get? a = some b →
      let inner := (rs.readMembers ms).ending b log
      let outer := ((rs.project p).readMembers ms).ending a log
      outer = ⟨inner.result, p.set inner.model a, inner.log⟩ ∧
      p.get? outer.model = some inner.model ∧ p.set b outer.model = a) ∧
    (∀ (ms : Members Node) (a : α) (log : Log), p.get? a = none →
      ((rs.project p).readMembers ms).ending a log = ⟨.ok (), a, log⟩) ∧
    (∀ base other : FieldReaders α, other.keys.Nodup → ∀ m : String × Node,
      (base.extend other).readMember m =
        if other.has m.1 then other.readMember m else base.readMember m) ∧
    ∀ [Parsable α] (readers : FieldReaders α) (ms : Members Node),
      (ms.filter fun m => readers.has m.1).forM (Parsable.fillMember readers) =
        readers.readMembers ms := by
  refine ⟨fun ms a b log h => ?_,
    fun ms a log h => ending_readMembers_project_of_none rs h ms log,
    fun base _ h m => readMember_extend base h m, fun readers ms => forM_fillMember readers ms⟩
  have houter := ending_readMembers_project rs hp h ms log
  refine ⟨houter, ?_, ?_⟩
  · rw [houter]
    exact hp.get?_set_of_some h _
  · rw [houter]
    exact hp.set_back h _

/-- The member count of a group is read, a field without a reader is passed over, and a text that is
no number ends the reading. A reader that clears the count and then fails leaves the group without
it. A user has no member count. Of two readers of the count, the one that is added later reads
it. -/
theorem reads_as_parts_group :
    let clearing : FieldReader Group := fun n => do
      modify fun g => { g with memberCount := none }
      throw (.parse n.path (.refused "no count"))
    let readers : FieldReaders Group :=
      .ofList [("memberCount", Group.memberCountField.reader), ("owner", clearing)]
    let count := readers.project DirectoryObject.groupView
    let idle : FieldReaders DirectoryObject := .ofList [("memberCount", fun _ => return)]
    let member (key text : String) : String × Node := (key, .leaf ("/" ++ key) (some text))
    let group : Group := { base := { id := some "staff" }, memberCount := some 1 }
    DirectoryObject.groupView.Lawful ∧
    DirectoryObject.groupView.get? (.group group) = some group ∧
    DirectoryObject.groupView.get? (.user {}) = none ∧ count.keys.Nodup ∧ idle.keys.Nodup ∧
    (count.readMembers [member "memberCount" "2", member "mail" "x", member "memberCount" "many",
        member "memberCount" "3"]).ending (.group group) [] =
      ⟨.error (.parse "/memberCount" (.expected .integer32 (.text "many"))),
        .group { group with memberCount := some 2 }, []⟩ ∧
    (count.readMembers [member "memberCount" "2", member "owner" "x",
        member "memberCount" "3"]).ending (.group group) [] =
      ⟨.error (.parse "/owner" (.refused "no count")), .group { group with memberCount := none },
        []⟩ ∧
    (count.readMembers [member "owner" "x"]).ending (.user {}) [] = ⟨.ok (), .user {}, []⟩ ∧
    (count.extend idle).readMember (member "memberCount" "2") = pure () ∧
    ((idle.extend count).readMember (member "memberCount" "2")).ending (.group group) [] =
      ⟨.ok (), .group { group with memberCount := some 2 }, []⟩ := by
  intro clearing readers count idle member group
  obtain ⟨hpresent, habsent, hextend, -⟩ :=
    reads_as_parts DirectoryObject.groupView_lawful readers
  have hgroup : DirectoryObject.groupView.get? (.group group) = some group := rfl
  have huser : DirectoryObject.groupView.get? (.user {}) = none := rfl
  have hcount : count.keys.Nodup := by
    rw [keys_project]
    exact nodup_keys_ofList _
  have hidle : idle.keys.Nodup := nodup_keys_ofList _
  refine ⟨DirectoryObject.groupView_lawful, hgroup, huser, hcount, hidle, ?_, ?_,
    habsent _ _ _ huser, ?_, ?_⟩
  · exact (hpresent _ _ _ _ hgroup).1
  · exact (hpresent _ _ _ _ hgroup).1
  · exact hextend _ _ hidle _
  · rw [hextend _ _ hcount]
    rfl

end FieldReaders

end Marshal
