import Marshal.Proofs.Employee.Reading
import Marshal.Proofs.Json.Getters
import Marshal.Proofs.Json.Places
import Marshal.Proofs.Reading.Outcome

/-!
What the document of an employee has to hold at each place, and the first place where it does not,
or which is too deep. Places below undeclared members are open to anything.
-/

namespace Marshal

open Json (Place)

namespace Employee

/-- How a value is read. -/
inductive Slot
  | scalar (k : Kind)
  | employee
  | list (item : Slot)

namespace Slot

def fields : Members Slot := [
  ("id", .scalar .string),
  ("displayName", .scalar .string),
  ("age", .scalar .int),
  ("rank", .scalar .long),
  ("level", .scalar .byte),
  ("offset", .scalar .sbyte),
  ("ratio", .scalar .float),
  ("score", .scalar .double),
  ("price", .scalar .decimal),
  ("active", .scalar .bool),
  ("created", .scalar .dateTime),
  ("birthday", .scalar .date),
  ("startTime", .scalar .time),
  ("tenure", .scalar .timeSpan),
  ("guid", .scalar .guid),
  ("photo", .scalar .bytes),
  ("status", .scalar .string),
  ("permissions", .scalar .string),
  ("tags", .list (.scalar .string)),
  ("luckyNumbers", .list (.scalar .int)),
  ("pastStatuses", .list (.scalar .string)),
  ("manager", .employee),
  ("colleagues", .list .employee)]

/-- Whether the read takes a value, leaving what lies within it aside. -/
def accepts : Slot → Json → Bool
  | scalar k, v => (({ value := v } : JsonNode).read? k).isOk
  | employee, .null | employee, .object _ | list _, .null | list _, .array _ => true
  | _, _ => false

def step? : Slot → String → Option Slot
  | scalar _, _ => none
  | employee, name => fields.get? name
  | list item, _ => some item

def at? : Slot → Place → Option Slot
  | s, [] => some s
  | s, step :: rest => (s.step? step).bind (at? · rest)

/-- A node with a value that the read at its place does not take. -/
def offends (s : Slot) (node : Place × Json) : Bool :=
  (s.at? node.1).any fun t => !t.accepts node.2

/-- The place of the first node that offends. -/
def fault? (s : Slot) (v : Json) : Option Place :=
  (v.nodes.find? s.offends).map Prod.fst

/-- A place more than `room` steps down, where reading the value above makes a node. -/
def overruns (s : Slot) (room : Nat) (place : Place) : Bool :=
  room < place.length && (s.at? place.dropLast).isSome

def bars (s : Slot) (room : Nat) (node : Place × Json) : Bool :=
  s.offends node || s.overruns room node.1

def bar? (s : Slot) (room : Nat) (v : Json) : Option Place :=
  (v.nodes.find? (s.bars room)).map Prod.fst

variable {s : Slot} {room : Nat} {v : Json}

theorem offends_root (s : Slot) (v : Json) : s.offends ([], v) = !s.accepts v := rfl

theorem offends_under (s : Slot) (step : String) (node : Place × Json) :
    s.offends (Json.under step node) = (s.step? step).any fun t => t.offends node := by
  cases h : s.step? step <;> simp [offends, Json.under, at?, h]

theorem overruns_root (s : Slot) (room : Nat) : s.overruns room [] = false := rfl

theorem overruns_succ (s : Slot) (room : Nat) (step : String) (place : Place) :
    s.overruns (room + 1) (step :: place) = (s.step? step).any fun t => t.overruns room place := by
  cases place with
  | nil => cases h : s.step? step <;> simp [overruns]
  | cons next place => cases h : s.step? step <;> simp [overruns, at?, h]

theorem bars_root (s : Slot) (room : Nat) (v : Json) : s.bars room ([], v) = !s.accepts v := by
  rw [bars, overruns_root, Bool.or_false, offends_root]

theorem bars_comp_under (s : Slot) (room : Nat) (step : String) :
    s.bars (room + 1) ∘ Json.under step =
      fun node => (s.step? step).any fun t => t.bars room node := by
  funext node
  have hplace : (Json.under step node).1 = step :: node.1 := rfl
  rw [Function.comp_apply, bars, offends_under, hplace, overruns_succ]
  cases s.step? step <;> rfl

theorem bar?_of_not_accepts (h : s.accepts v = false) (room : Nat) : s.bar? room v = some [] := by
  rw [bar?, Json.find?_nodes_of_root (by rw [bars_root, h]; rfl)]
  rfl

/-- What is first below a step. -/
theorem bar?_under (s : Slot) (room : Nat) (step : String) (v : Json) :
    ((v.nodes.find? (s.bars (room + 1) ∘ Json.under step)).map (Json.under step)).map Prod.fst =
      ((s.step? step).bind (·.bar? room v)).map (step :: ·) := by
  rw [bars_comp_under]
  cases s.step? step with
  | none => simp
  | some t =>
      simp only [Option.any_some, Option.bind_some, bar?, Option.map_map]
      rfl

theorem bar?_children (h : s.accepts v = true) (hroom : v.children ≠ [] → 1 ≤ room) :
    s.bar? room v = v.children.findSome? fun c =>
      ((s.step? c.1).bind (·.bar? (room - 1) c.2)).map (c.1 :: ·) := by
  rw [bar?, Json.find?_nodes (by rw [bars_root, h]; rfl), List.map_findSome?]
  by_cases hne : v.children = []
  · rw [hne]
    rfl
  · obtain ⟨room, rfl⟩ := Nat.exists_eq_add_of_le' (hroom hne)
    simp only [Function.comp_def (Option.map Prod.fst), bar?_under, Nat.add_sub_cancel]

/-- Without room there is no way past the first child. -/
theorem bar?_full {c : String × Json} {cs : List (String × Json)} (h : s.accepts v = true)
    (hc : v.children = c :: cs) : s.bar? 0 v = some [c.1] := by
  have hfirst : c.2.nodes.find? (s.bars 0 ∘ Json.under c.1) = some ([], c.2) :=
    Json.find?_nodes_of_root (Bool.or_true _)
  rw [bar?, Json.find?_nodes (by rw [bars_root, h]; rfl), hc, List.findSome?_cons, hfirst]
  rfl

/-- A scalar is not taken from a container. -/
theorem children_of_accepts_scalar {k : Kind} (h : (scalar k).accepts v = true) :
    v.children = [] := by
  cases v with
  | object ms => cases k <;> cases h
  | array vs => cases k <;> cases h
  | _ => rfl

theorem bar?_scalar {k : Kind} (h : (scalar k).accepts v = true) (room : Nat) :
    (scalar k).bar? room v = none := by
  have hchildren := children_of_accepts_scalar h
  rw [bar?_children h fun hne => absurd hchildren hne, hchildren]
  rfl

/-- With room for all nodes only the values count. -/
theorem bar?_of_depth_le (h : v.depth ≤ room) (s : Slot) : s.bar? room v = s.fault? v := by
  have hnodes : ∀ node ∈ v.nodes, s.bars room node = s.offends node := by
    intro node hnode
    have hlength := v.length_le_depth node hnode
    have hshort : s.overruns room node.1 = false := by
      rw [overruns, decide_eq_false (by omega), Bool.false_and]
    rw [bars, hshort, Bool.or_false]
  rw [bar?, fault?, ← List.head?_filter, ← List.head?_filter, List.filter_congr hnodes]

end Slot

end Employee

namespace JsonNode

def spot (n : JsonNode) (place : Place) : String :=
  Json.Pointer.text (n.steps ++ place)

theorem spot_nil (n : JsonNode) : n.spot [] = n.path := by
  rw [spot, List.append_nil, path]

theorem spot_below (n : JsonNode) (step : String) (v : Json) (place : Place) :
    (n.below step v).spot place = n.spot (step :: place) := by
  simp [spot, below]

def Due (n : JsonNode) (place : Place) (e : Error) : Prop :=
  ∃ cause, e = .parse (n.spot place) cause ∧ (n.left < place.length → cause = .tooDeep n.maxDepth)

theorem due_nil {n : JsonNode} {cause : ParseFault} : n.Due [] (.parse n.path cause) :=
  ⟨cause, by rw [spot_nil], nofun⟩

theorem due_below {n : JsonNode} (hroom : n.Room 1) (step : String) (v : Json) (place : Place) :
    (n.below step v).Due place = n.Due (step :: place) := by
  have hleft := hroom.le_left
  have hlength : (n.below step v).left < place.length ↔ n.left < (step :: place).length := by
    rw [left_below, List.length_cons]
    omega
  funext e
  rw [Due, Due, spot_below, hlength, maxDepth_below]

end JsonNode

end Marshal
