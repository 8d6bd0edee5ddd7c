import Marshal.Proofs.Codec

/-!
Calls in brackets spell trees. Whatever a JSON document holds so far, the calls for a tree add the
one value that the tree stands for where there is room, and touch nothing else.
-/

namespace Marshal

/-- Scalars and nulls, objects with named members, and arrays. A key given to an element of an array
is as good as none. -/
inductive Tree
  | scalar (k : Kind) (v : Option k.Carrier)
  | null
  | object (subject : Subject) (members : List (String × Tree))
  | array (items : List (Option String × Tree))

namespace Tree

mutual

def script (key : Option String) : Tree → Script
  | scalar k v => [k.call key v]
  | null => [.ok (.null key)]
  | object subject members => .ok (.startObject key subject) :: memberScript members
  | array items => .ok (.startCollection key) :: itemScript items

def memberScript : List (String × Tree) → Script
  | [] => [.ok .endObject]
  | (name, t) :: ms => t.script (some name) ++ memberScript ms

def itemScript : List (Option String × Tree) → Script
  | [] => [.ok .endCollection]
  | (key, t) :: ts => t.script key ++ itemScript ts

end

mutual

/-- The value that a tree stands for; an absent scalar stands for none. -/
def value? : Tree → Option Json
  | scalar k v => v.map k.json
  | null => some .null
  | object _ members => some (.object (Members.ofPairs (memberValues members)))
  | array items => some (.array (itemValues items))

def memberValues : List (String × Tree) → List (String × Json)
  | [] => []
  | (name, t) :: ms => t.value?.toList.map (name, ·) ++ memberValues ms

def itemValues : List (Option String × Tree) → List Json
  | [] => []
  | (_, t) :: ts => t.value?.toList ++ itemValues ts

end

mutual

def Expressible : Tree → Prop
  | scalar k v => ∀ x ∈ v, k.Expressible x
  | null => True
  | object _ members => ExpressibleMembers members
  | array items => ExpressibleItems items

def ExpressibleMembers : List (String × Tree) → Prop
  | [] => True
  | (_, t) :: ms => t.Expressible ∧ ExpressibleMembers ms

def ExpressibleItems : List (Option String × Tree) → Prop
  | [] => True
  | (_, t) :: ts => t.Expressible ∧ ExpressibleItems ts

end

end Tree

namespace JsonDraft

def Accepts (key : Option String) (d : JsonDraft) : Prop :=
  match d.stack with
  | .object _ _ :: _ => key.isSome
  | .array _ _ :: _ => True
  | [] => d.root = none

/-- One value more: a member of the innermost object, an item of the innermost array, or the root.
The containers around the innermost one are as they were. -/
inductive Gains (v : Json) : Option String → JsonDraft → JsonDraft → Prop
  | member (name : String) (key : Option String) (members : Members Json) (rest : List Frame)
      (root : Option Json) :
      Gains v (some name) ⟨.object key members :: rest, root⟩
        ⟨.object key (members.put name v) :: rest, root⟩
  | item (name key : Option String) (items : List Json) (rest : List Frame) (root : Option Json) :
      Gains v name ⟨.array key items :: rest, root⟩ ⟨.array key (items ++ [v]) :: rest, root⟩
  | root (name : Option String) : Gains v name ⟨[], none⟩ ⟨[], some v⟩

theorem Accepts.put {key : Option String} {d : JsonDraft} (h : d.Accepts key) (v : Json) :
    ∃ d', d.put key v = (.ok (), d') ∧ Gains v key d d' := by
  obtain ⟨stack, root⟩ := d
  rw [Accepts] at h
  match stack, h with
  | .object k members :: rest, h =>
      obtain ⟨name, rfl⟩ := Option.isSome_iff_exists.mp h
      exact ⟨_, rfl, .member name k members rest root⟩
  | .array k items :: rest, _ => exact ⟨_, rfl, .item key k items rest root⟩
  | [], h =>
      obtain rfl : root = none := h
      exact ⟨_, rfl, .root key⟩

theorem Accepts.root_eq {key : Option String} {d : JsonDraft} (h : d.Accepts key)
    (hstack : d.stack = []) : d.root = none := by
  simpa [Accepts, hstack] using h

theorem Gains.stack_eq_nil_iff {v : Json} {key : Option String} {d d' : JsonDraft}
    (h : Gains v key d d') : d'.stack = [] ↔ d.stack = [] := by
  cases h <;> simp

theorem Gains.root_eq {v : Json} {key : Option String} {d d' : JsonDraft} (h : Gains v key d d')
    (hstack : d.stack = []) : d'.root = some v := by
  cases h with
  | root => rfl
  | _ => cases hstack

/-- Only a document without open containers can be finished, and its text is that of the root. -/
theorem finish_eq_ok_iff {d : JsonDraft} {payload : Bytes} :
    d.finish.1 = .ok payload ↔
      d.stack = [] ∧ payload = d.root.elim [] fun v => Bytes.ofString v.text := by
  obtain ⟨stack, root⟩ := d
  cases stack with
  | nil => cases root <;> simp [finish, eq_comm]
  | cons f rest => simp [finish]

end JsonDraft

namespace Tree

open JsonDraft

/-! ### Running the calls -/

theorem run_cons {c : Call} {d e : JsonDraft} (h : d.call c = (.ok (), e)) (rest : Script) :
    Draft.run (.ok c :: rest) d = Draft.run rest e := by
  have hcall : Draft.call c d = (.ok (), e) := h
  rw [Draft.run, hcall]

mutual

/-- Once the calls for a tree are made, the document is as if its value had been put at once. The
end of a container is where the value is put, so the induction carries whatever follows the tree. -/
theorem run_script_append : ∀ (t : Tree), t.Expressible → ∀ (key : Option String)
    (d d' : JsonDraft), d.putSome key t.value? = (.ok (), d') → ∀ rest : Script,
    Draft.run (t.script key ++ rest) d = Draft.run rest d'
  | scalar k v, h, key, d, d', hput, rest => by
      rw [Expressible] at h
      obtain ⟨c, hcall, hc⟩ := Kind.call_eq h key
      rw [script, hcall, List.singleton_append]
      exact run_cons ((hc d).trans hput) rest
  | null, _, key, d, d', hput, rest => run_cons (c := .null key) hput rest
  | object subject members, h, key, d, d', hput, rest => by
      rw [Expressible] at h
      rw [script, List.cons_append, run_cons (e := d.inObject key []) rfl]
      exact run_memberScript members h key d d' [] hput rest
  | array items, h, key, d, d', hput, rest => by
      rw [Expressible] at h
      rw [script, List.cons_append, run_cons (e := d.inArray key []) rfl]
      exact run_itemScript items h key d d' [] hput rest

theorem run_memberScript : ∀ (ms : List (String × Tree)), ExpressibleMembers ms →
    ∀ (key : Option String) (d d' : JsonDraft) (members : Members Json),
    d.put key (.object (members.putAll (memberValues ms))) = (.ok (), d') → ∀ rest : Script,
    Draft.run (memberScript ms ++ rest) (d.inObject key members) = Draft.run rest d'
  | [], _, key, d, d', members, hput, rest =>
      run_cons (d := d.inObject key members) (c := .endObject) hput rest
  | (name, t) :: ms, h, key, d, d', members, hput, rest => by
      rw [ExpressibleMembers] at h
      rw [memberValues, Members.putAll_append] at hput
      rw [memberScript, List.append_assoc,
        run_script_append t h.1 (some name) _ _ (putSome_inObject ..)]
      exact run_memberScript ms h.2 key d d' _ hput rest

theorem run_itemScript : ∀ (ts : List (Option String × Tree)), ExpressibleItems ts →
    ∀ (key : Option String) (d d' : JsonDraft) (items : List Json),
    d.put key (.array (items ++ itemValues ts)) = (.ok (), d') → ∀ rest : Script,
    Draft.run (itemScript ts ++ rest) (d.inArray key items) = Draft.run rest d'
  | [], _, key, d, d', items, hput, rest => by
      rw [itemValues, List.append_nil] at hput
      exact run_cons (d := d.inArray key items) (c := .endCollection) hput rest
  | (name, t) :: ts, h, key, d, d', items, hput, rest => by
      rw [ExpressibleItems] at h
      rw [itemValues, ← List.append_assoc] at hput
      have hitem : (d.inArray key items).putSome name t.value? =
          (.ok (), d.inArray key (items ++ t.value?.toList)) := by
        cases t.value? with
        | none => rw [Option.toList_none, List.append_nil]; rfl
        | some v => rfl
      rw [itemScript, List.append_assoc, run_script_append t h.1 name _ _ hitem]
      exact run_itemScript ts h.2 key d d' _ hput rest

end

/-- Where there is room under `key`, the calls for a tree all succeed and add its value, and nothing
if it has none. The document can be finished then unless a container was open before. -/
theorem run_adds_value {t : Tree} (ht : t.Expressible) {key : Option String} {d : JsonDraft}
    (hd : d.Accepts key) :
    ∃ d', Draft.run (t.script key) d = (.ok (), d') ∧
      (∀ v, t.value? = some v → Gains v key d d') ∧ (t.value? = none → d' = d) ∧
      ∀ payload, (Draft.finish d').1 = .ok payload ↔
        d.stack = [] ∧ payload = t.value?.elim [] fun v => Bytes.ofString v.text := by
  have hrun : ∀ d', d.putSome key t.value? = (.ok (), d') →
      Draft.run (t.script key) d = (.ok (), d') := fun d' hput => by
    simpa using run_script_append t ht key d d' hput []
  cases hvalue : t.value? with
  | none =>
      rw [hvalue] at hrun
      refine ⟨d, hrun d rfl, by simp, fun _ => rfl, fun payload => ?_⟩
      refine finish_eq_ok_iff.trans (and_congr_right fun hstack => ?_)
      rw [hd.root_eq hstack]
  | some v =>
      rw [hvalue] at hrun
      obtain ⟨d', hput, hgains⟩ := hd.put v
      refine ⟨d', hrun d' hput, ?_, by simp, fun payload => ?_⟩
      · rintro w ⟨⟩
        exact hgains
      · rw [← hgains.stack_eq_nil_iff]
        refine finish_eq_ok_iff.trans (and_congr_right fun hstack => ?_)
        rw [hgains.root_eq (hgains.stack_eq_nil_iff.mp hstack)]

def parcel : Tree :=
  .object .untyped [("to", .scalar .string (some "Ann")), ("note", .scalar .string none),
    ("items", .array [(none, .object .model [("fragile", .scalar .bool (some true))]),
      (some "lost", .null), (none, .scalar .bool none)]),
    ("to", .scalar .string (some "Bob"))]

def shipment : JsonDraft :=
  ⟨[.object none [("parcel", .null)], .array (some "shipments") [.null], .object none []], none⟩

theorem run_adds_value_parcel :
    ∃ d', Draft.run (parcel.script (some "parcel")) shipment = (.ok (), d') ∧
      Gains (.object [("to", .string "Bob"),
        ("items", .array [.object [("fragile", .bool true)], .null])]) (some "parcel") shipment d' ∧
      ∀ payload, (Draft.finish d').1 ≠ .ok payload := by
  have hexpressible : parcel.Expressible := by
    simp [parcel, Expressible, ExpressibleMembers, ExpressibleItems, Kind.Expressible]
  have haccepts : shipment.Accepts (some "parcel") := rfl
  obtain ⟨d', hrun, hgains, -, hfinish⟩ := run_adds_value hexpressible haccepts
  exact ⟨d', hrun, hgains _ rfl, fun payload h => List.cons_ne_nil _ _ ((hfinish payload).mp h).1⟩

/-- A moment before the year 0 has no text: the call for it fails, and the object stays open. -/
theorem run_before_year_zero :
    JsonDraft.Accepts none {} ∧
    Draft.run (script none (.object .untyped
        [("at", .scalar .dateTime (some ⟨⟨-1, 1, 1, by decide⟩, default, 0, by decide⟩))]))
      ({} : JsonDraft) =
      (.error (.format (.dateTime "-0001-01-01 0:00:00.0 +00:00:00" "year")),
        ⟨[.object none []], none⟩) :=
  ⟨rfl, rfl⟩

end Tree

end Marshal
