import Marshal.Models.DirectoryObject
import Marshal.Proofs.Field
import Marshal.Proofs.Json.Faithful

/-!
Directory objects in a JSON document: the object that one is written as, which says what it has
been declared to be.
-/

namespace Marshal

namespace DirectoryObject

def commonRows (b : DirectoryBase) : List Field.Row := [
  ("@odata.type", b.odataType.map (Kind.json .string)),
  ("id", b.id.map (Kind.json .string))]

def ownRows : DirectoryObject → List Field.Row
  | base _ => []
  | user u => [("mail", u.mail.map (Kind.json .string))]
  | group g => [("memberCount", g.memberCount.map (Kind.json .int))]

def json (o : DirectoryObject) : Json :=
  .object (Field.present (commonRows o.common) ++ Field.present o.ownRows)

theorem carries_common (b : DirectoryBase) :
    List.Forall₂ (Field.Carries b b) [DirectoryBase.typeField, DirectoryBase.idField]
      (commonRows b) :=
  .cons ⟨rfl, Kind.codec_carries_self (by decide) fun _ _ => trivial⟩ <|
  .cons ⟨rfl, Kind.codec_carries_self (by decide) fun _ _ => trivial⟩ .nil

theorem carries_mail (u : User) :
    List.Forall₂ (Field.Carries u u) [User.mailField] (ownRows (user u)) :=
  .cons ⟨rfl, Kind.codec_carries_self (by decide) fun _ _ => trivial⟩ .nil

theorem carries_memberCount (g : Group) :
    List.Forall₂ (Field.Carries g g) [Group.memberCountField] (ownRows (group g)) :=
  .cons ⟨rfl, Kind.codec_carries_self (by decide) fun _ _ => trivial⟩ .nil

theorem names_ownRows (o : DirectoryObject) :
    (o.ownRows.map Prod.fst).Sublist ["mail", "memberCount"] := by
  cases o with
  | base b => exact List.nil_sublist _
  | user u => exact (List.nil_sublist ["memberCount"]).cons_cons "mail"
  | group g => exact (List.Sublist.refl ["memberCount"]).cons "mail"

/-- An object has no other names than these. -/
theorem keys_json (o : DirectoryObject) :
    (Members.keys (Field.present (commonRows o.common) ++ Field.present o.ownRows)).Sublist
      ["@odata.type", "id", "mail", "memberCount"] := by
  rw [Members.keys, List.map_append]
  exact (Field.keys_present (commonRows o.common)).append
    ((Field.keys_present o.ownRows).trans o.names_ownRows)

theorem nodup_keys_json (o : DirectoryObject) :
    (Members.keys (Field.present (commonRows o.common) ++ Field.present o.ownRows)).Nodup :=
  List.Nodup.sublist o.keys_json (by decide)

/-- The members are strings and integers. -/
theorem exists_kind_of_mem {o : DirectoryObject} {m : String × Json}
    (hm : m ∈ Field.present (commonRows o.common) ++ Field.present o.ownRows) :
    ∃ (k : Kind) (v : k.Carrier), k.Survives v ∧ m.2 = k.json v := by
  have hrow : ∃ row ∈ commonRows o.common ++ o.ownRows, m.2 ∈ row.2 := by
    rw [Field.present, Field.present, ← List.flatMap_append, List.mem_flatMap] at hm
    obtain ⟨row, hrow, hm⟩ := hm
    obtain ⟨v, hv, rfl⟩ := List.mem_map.mp hm
    exact ⟨row, hrow, Option.mem_toList.mp hv⟩
  obtain ⟨row, hrow, hm⟩ := hrow
  rcases List.mem_append.mp hrow with hrow | hrow
  · simp only [commonRows, List.mem_cons, List.not_mem_nil, or_false] at hrow
    rcases hrow with rfl | rfl <;> obtain ⟨v, -, hv⟩ := Option.mem_map.mp hm
    · exact ⟨.string, v, trivial, hv.symm⟩
    · exact ⟨.string, v, trivial, hv.symm⟩
  · cases o with
    | base b => cases hrow
    | user u =>
        obtain rfl := List.mem_singleton.mp hrow
        obtain ⟨v, -, hv⟩ := Option.mem_map.mp hm
        exact ⟨.string, v, trivial, hv.symm⟩
    | group g =>
        obtain rfl := List.mem_singleton.mp hrow
        obtain ⟨v, -, hv⟩ := Option.mem_map.mp hm
        exact ⟨.int, v, trivial, hv.symm⟩

theorem faithful_json (o : DirectoryObject) : o.json.Faithful := by
  refine Json.faithful_object_iff.mpr ⟨o.nodup_keys_json, fun m hm hname => ?_, fun m hm => ?_⟩
  · have hkey := o.keys_json.subset (List.mem_map_of_mem (List.mem_of_mem_head? hm))
    rw [hname] at hkey
    exact absurd hkey (by decide)
  · obtain ⟨k, v, hv, hmv⟩ := exists_kind_of_mem hm
    rw [hmv]
    exact Kind.faithful_json hv

theorem nesting_json (o : DirectoryObject) : o.json.nesting ≤ 1 := by
  refine Nat.succ_le_succ (Json.memberNesting_le_iff.mpr fun m hm => ?_)
  obtain ⟨k, v, -, hmv⟩ := exists_kind_of_mem hm
  rw [hmv, Kind.nesting_json]

/-! ### Writing -/

theorem adds_script (o : DirectoryObject) :
    Script.Adds o.script (Field.present (commonRows o.common) ++ Field.present o.ownRows) := by
  have hcommon := Field.adds_scripts (carries_common o.common)
  cases o with
  | base b => exact hcommon.append Script.adds_nil
  | user u =>
      have hmail := Field.adds_scripts (carries_mail u)
      rw [Field.scripts, List.flatMap_singleton] at hmail
      exact hcommon.append hmail
  | group g =>
      have hcount := Field.adds_scripts (carries_memberCount g)
      rw [Field.scripts, List.flatMap_singleton] at hcount
      exact hcommon.append hcount

/-- An object is written as its JSON object, wherever there is room for it. -/
theorem puts_write (o : DirectoryObject) (key : Option String) :
    WriteM.Puts [] ((o.write key).exec ()) key () o.json := by
  have hputs := Writing.puts_object Layer.quiet_nil key .model (fun _ => { extra := none })
    (fun _ a => a) (Writing.adds_script o.adds_script () [])
  rw [Members.ofPairs_of_nodup o.nodup_keys_json] at hputs
  exact hputs

theorem puts_writeList (os : List DirectoryObject) (key : Option String) :
    WriteM.Puts [] (Outgoing.writeList key (os.map Writable.outgoing)) key os
      (.array (os.map json)) :=
  Outgoing.puts_writeAll (fun o _ => Outgoing.puts_ofUnmarked (o.puts_write none))
    key

end DirectoryObject

end Marshal
