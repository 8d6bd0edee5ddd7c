import Marshal.Proofs.Json.Node

/-!
The nodes of a document with their places, in depth-first order: each stands before all that lies
within it, and that in the order in which the document has it.
-/

namespace Marshal

namespace Json

abbrev Place := List String

def under (step : String) (node : Place × Json) : Place × Json :=
  (step :: node.1, node.2)

mutual

def nodes : Json → List (Place × Json)
  | array items => ([], array items) :: itemNodes 0 items
  | object members => ([], object members) :: memberNodes members
  | v => [([], v)]

def itemNodes (start : Nat) : List Json → List (Place × Json)
  | [] => []
  | v :: vs => (nodes v).map (under (natText start)) ++ itemNodes (start + 1) vs

def memberNodes : List (String × Json) → List (Place × Json)
  | [] => []
  | (k, v) :: ms => (nodes v).map (under k) ++ memberNodes ms

end

def children : Json → List (String × Json)
  | array items => items.zipIdx.map fun item => (natText item.2, item.1)
  | object members => members
  | _ => []

theorem memberNodes_eq (ms : List (String × Json)) :
    memberNodes ms = ms.flatMap fun m => m.2.nodes.map (under m.1) := by
  induction ms with
  | nil => rfl
  | cons m ms ih => rw [memberNodes, ih, List.flatMap_cons]

theorem itemNodes_eq (start : Nat) (vs : List Json) :
    itemNodes start vs =
      (vs.zipIdx start).flatMap fun item => item.1.nodes.map (under (natText item.2)) := by
  induction vs generalizing start with
  | nil => rfl
  | cons v vs ih => rw [itemNodes, ih, List.zipIdx_cons, List.flatMap_cons]

theorem nodes_eq (v : Json) :
    v.nodes = ([], v) :: v.children.flatMap fun c => c.2.nodes.map (under c.1) := by
  cases v with
  | array vs => rw [nodes, itemNodes_eq, children, List.flatMap_map]
  | object ms => rw [nodes, memberNodes_eq, children]
  | _ => rfl

theorem root_mem_nodes (v : Json) : ([], v) ∈ v.nodes := by
  rw [nodes_eq]
  exact List.mem_cons_self

theorem forall_nodes {P : Place × Json → Prop} {v : Json} : (∀ node ∈ v.nodes, P node) ↔
    P ([], v) ∧ ∀ c ∈ v.children, ∀ node ∈ c.2.nodes, P (under c.1 node) := by
  rw [nodes_eq, List.forall_mem_cons]
  simp only [List.forall_mem_flatMap, List.forall_mem_map]

section

variable {p : Place × Json → Bool} {v : Json}

/-- A root that is wanted comes first. -/
theorem find?_nodes_of_root (h : p ([], v) = true) : v.nodes.find? p = some ([], v) := by
  rw [nodes_eq, List.find?_cons_of_pos h]

theorem find?_nodes (h : p ([], v) = false) : v.nodes.find? p =
    v.children.findSome? fun c => (c.2.nodes.find? (p ∘ under c.1)).map (under c.1) := by
  rw [nodes_eq, List.find?_cons_of_neg (by simp [h]), List.find?_flatMap]
  simp only [List.find?_map]

end

theorem depth_lt_of_mem_children {c : String × Json} {v : Json} (h : c ∈ v.children) :
    c.2.depth < v.depth := by
  cases v with
  | array vs =>
      obtain ⟨item, hitem, rfl⟩ := List.mem_map.mp h
      rw [depth]
      exact depth_lt_depthItems (List.fst_mem_of_mem_zipIdx hitem)
  | object ms =>
      rw [depth]
      exact depth_lt_depthMembers h
  | _ => cases h

theorem length_le_depth (v : Json) : ∀ node ∈ v.nodes, node.1.length ≤ v.depth := by
  rw [forall_nodes]
  refine ⟨Nat.zero_le _, fun c hc node hnode => ?_⟩
  exact Nat.lt_of_le_of_lt (length_le_depth c.2 node hnode) (depth_lt_of_mem_children hc)
termination_by v.depth
decreasing_by exact depth_lt_of_mem_children hc

end Json

end Marshal
