import Marshal.Proofs.Json.Doubles
import Marshal.Proofs.Json.Kind
import Marshal.Proofs.Json.Node
import Marshal.Proofs.Json.Numbers
import Marshal.Proofs.Json.Same
import Marshal.Proofs.Json.Text

/-!
Values whose texts are read as the values. They have no reserved names, and their numbers are
spelled as numbers are.
-/

namespace Marshal

namespace Json

mutual

/-- No object has the reserved name first. -/
def Unreserved : Json → Prop
  | array items => UnreservedItems items
  | object members =>
    (∀ m ∈ members.head?, m.1 ≠ numberName) ∧ UnreservedMembers members
  | _ => True

def UnreservedItems : List Json → Prop
  | [] => True
  | v :: vs => v.Unreserved ∧ UnreservedItems vs

def UnreservedMembers : List (String × Json) → Prop
  | [] => True
  | (_, v) :: ms => v.Unreserved ∧ UnreservedMembers ms

end

theorem unreservedItems_iff {vs : List Json} : UnreservedItems vs ↔ ∀ v ∈ vs, v.Unreserved := by
  induction vs with
  | nil => simp [UnreservedItems]
  | cons v vs ih => rw [UnreservedItems, ih, List.forall_mem_cons]

theorem unreservedMembers_iff {ms : List (String × Json)} :
    UnreservedMembers ms ↔ ∀ m ∈ ms, m.2.Unreserved := by
  induction ms with
  | nil => simp [UnreservedMembers]
  | cons m ms ih => rw [UnreservedMembers, ih, List.forall_mem_cons]

mutual

/-- Without the reserved name in front, a value is read as it is. -/
theorem reread?_of_unreserved : ∀ v : Json, v.Unreserved → v.reread? = some v
  | null, _ | bool _, _ | number _, _ | string _, _ => rfl
  | array items, h => by
      rw [Unreserved] at h
      rw [reread?, rereadItems?_of_unreserved items h, Option.map_some]
  | object [], _ => rfl
  | object ((k, v) :: ms), h => by
      rw [Unreserved, UnreservedMembers] at h
      obtain ⟨hname, hv, hms⟩ := h
      rw [reread?, if_neg (hname (k, v) rfl), reread?_of_unreserved v hv, Option.bind_some,
        rereadMembers?_of_unreserved ms hms, Option.map_some]

theorem rereadItems?_of_unreserved : ∀ vs : List Json, UnreservedItems vs →
    rereadItems? vs = some vs
  | [], _ => rfl
  | v :: vs, h => by
      rw [UnreservedItems] at h
      rw [rereadItems?, reread?_of_unreserved v h.1, Option.bind_some,
        rereadItems?_of_unreserved vs h.2, Option.map_some]

theorem rereadMembers?_of_unreserved : ∀ ms : List (String × Json), UnreservedMembers ms →
    rereadMembers? ms = some ms
  | [], _ => rfl
  | (k, v) :: ms, h => by
      rw [UnreservedMembers] at h
      rw [rereadMembers?, reread?_of_unreserved v h.1, Option.bind_some,
        rereadMembers?_of_unreserved ms h.2, Option.map_some]

end

theorem forall₂_of_rereadItems? {vs ws : List Json} (h : rereadItems? vs = some ws) :
    List.Forall₂ (fun v w => v.reread? = some w) vs ws := by
  induction vs generalizing ws with
  | nil =>
      cases h
      exact .nil
  | cons v vs ih =>
      rw [rereadItems?, Option.bind_eq_some_iff] at h
      obtain ⟨w, hw, h⟩ := h
      obtain ⟨ws, hws, rfl⟩ := Option.map_eq_some_iff.mp h
      exact .cons hw (ih hws)

theorem forall₂_of_rereadMembers? {ms ns : Members Json} (h : rereadMembers? ms = some ns) :
    List.Forall₂ (fun p q => p.1 = q.1 ∧ p.2.reread? = some q.2) ms ns := by
  induction ms generalizing ns with
  | nil =>
      cases h
      exact .nil
  | cons m ms ih =>
      rw [rereadMembers?, Option.bind_eq_some_iff] at h
      obtain ⟨w, hw, h⟩ := h
      obtain ⟨ns, hns, rfl⟩ := Option.map_eq_some_iff.mp h
      exact .cons ⟨rfl, hw⟩ (ih hns)

/-- The text of an object is read as a number, or the object does not have the reserved name first.
-/
theorem reread?_object {ms : Members Json} {w : Json} (h : (object ms).reread? = some w) :
    (∃ t, w = number t) ∨ ∃ ns, w = object ns ∧ (∀ m ∈ ms.head?, m.1 ≠ numberName) ∧
      List.Forall₂ (fun p q => p.1 = q.1 ∧ p.2.reread? = some q.2) ms ns := by
  cases ms with
  | nil =>
      cases h
      exact .inr ⟨[], rfl, nofun, .nil⟩
  | cons m ms =>
      obtain ⟨k, v⟩ := m
      rw [reread?] at h
      split_ifs at h with hname
      · left
        rw [numberOf?.eq_def] at h
        split at h
        · obtain ⟨t, -, rfl⟩ := Option.map_eq_some_iff.mp h
          exact ⟨_, rfl⟩
        · cases h
      · right
        obtain ⟨w, hw, h⟩ := Option.bind_eq_some_iff.mp h
        obtain ⟨ns, hns, rfl⟩ := Option.map_eq_some_iff.mp h
        refine ⟨_, rfl, ?_, .cons ⟨rfl, hw⟩ (forall₂_of_rereadMembers? hns)⟩
        rintro p hp
        cases hp
        exact hname

theorem unreserved_array_iff {vs : List Json} :
    (array vs).Unreserved ↔ ∀ v ∈ vs, v.Unreserved := by
  rw [Unreserved, unreservedItems_iff]

theorem unreserved_object_iff {ms : Members Json} :
    (object ms).Unreserved ↔
      (∀ m ∈ ms.head?, m.1 ≠ numberName) ∧ ∀ m ∈ ms, m.2.Unreserved := by
  rw [Unreserved, unreservedMembers_iff]

theorem spelled_array_iff {vs : List Json} : (array vs).Spelled ↔ ∀ v ∈ vs, v.Spelled := by
  rw [Spelled]
  induction vs with
  | nil => simp [SpelledItems]
  | cons v vs ih => rw [SpelledItems, ih, List.forall_mem_cons]

theorem spelled_object_iff {ms : Members Json} :
    (object ms).Spelled ↔ ∀ m ∈ ms, m.2.Spelled := by
  rw [Spelled]
  induction ms with
  | nil => simp [SpelledMembers]
  | cons m ms ih => rw [SpelledMembers, ih, List.forall_mem_cons]

theorem itemNesting_le_iff {vs : List Json} {k : Nat} :
    itemNesting vs ≤ k ↔ ∀ v ∈ vs, v.nesting ≤ k := by
  induction vs with
  | nil => simp [itemNesting]
  | cons v vs ih => rw [itemNesting, Nat.max_le, ih, List.forall_mem_cons]

theorem memberNesting_le_iff {ms : List (String × Json)} {k : Nat} :
    memberNesting ms ≤ k ↔ ∀ m ∈ ms, m.2.nesting ≤ k := by
  induction ms with
  | nil => simp [memberNesting]
  | cons m ms ih => rw [memberNesting, Nat.max_le, ih, List.forall_mem_cons]

theorem memberNesting_perm {ms ns : List (String × Json)} (h : ms.Perm ns) :
    memberNesting ms = memberNesting ns := by
  induction h with
  | nil => rfl
  | cons m _ ih => rw [memberNesting, memberNesting, ih]
  | swap m n ms => simp only [memberNesting, Nat.max_left_comm]
  | trans _ _ ih ih' => exact ih.trans ih'

mutual

theorem nesting_eq_of_same : ∀ {v w : Json}, v.Same w → v.nesting = w.nesting
  | array vs, _, h => by
      obtain ⟨ws, rfl, h⟩ := h
      rw [nesting, nesting, itemNesting_eq_of_same h]
  | object ms, _, h => by
      obtain ⟨ns, ns', rfl, hperm, h⟩ := h
      rw [nesting, nesting, memberNesting_perm hperm, memberNesting_eq_of_same h]
  | null, _, h | bool _, _, h | number _, _, h | string _, _, h => by rw [Same] at h; rw [h]

theorem itemNesting_eq_of_same : ∀ {vs ws : List Json}, SameItems vs ws →
    itemNesting vs = itemNesting ws
  | [], [], _ => rfl
  | v :: vs, w :: ws, h => by
      rw [SameItems] at h
      rw [itemNesting, itemNesting, nesting_eq_of_same h.1, itemNesting_eq_of_same h.2]

theorem memberNesting_eq_of_same : ∀ {ms ns : List (String × Json)}, SameMembers ms ns →
    memberNesting ms = memberNesting ns
  | [], [], _ => rfl
  | (_, v) :: ms, (_, w) :: ns, h => by
      rw [SameMembers] at h
      rw [memberNesting, memberNesting, nesting_eq_of_same h.2.1, memberNesting_eq_of_same h.2.2]

end

/-! ### What is read from a text -/

theorem head?_put {ms : Members Json} {key : String} {v : Json} (hkey : ms = [] → key ≠ numberName)
    (h : ∀ m ∈ ms.head?, m.1 ≠ numberName) : ∀ m ∈ (ms.put key v).head?, m.1 ≠ numberName := by
  cases ms with
  | nil =>
      rintro m hm
      cases hm
      exact hkey rfl
  | cons p ms =>
      have hp := h p rfl
      rw [Members.put]
      split_ifs with heq
      · rintro m hm
        cases hm
        exact heq ▸ hp
      · rintro m hm
        cases hm
        exact hp

theorem builds_unreserved (limit : Nat) : Builds limit fun _ => Unreserved where
  scalar _ v _ hv := by
    cases v with
    | array items => cases hv
    | object members => cases hv
    | _ => trivial
  array _ _ _ := unreserved_array_iff.mpr
  object _ _ := unreserved_object_iff.mpr ⟨nofun, List.forall_mem_nil _⟩
  put _ ms key v hms hv hkey := by
    rw [unreserved_object_iff] at hms ⊢
    refine ⟨head?_put hkey hms.1, fun m hm => ?_⟩
    rcases Members.mem_put hm with rfl | hm
    · exact hv
    · exact hms.2 m hm

/-- No object of a document that was read has the reserved name first. -/
theorem unreserved_of_ofString? {s : String} {v : Json} (h : ofString? s = some v) :
    v.Unreserved :=
  kept_of_ofString? (builds_unreserved nestingLimit) h

theorem builds_nesting (limit : Nat) : Builds limit fun k v => k + v.nesting < limit where
  scalar k v hk hv := by
    cases v with
    | array items => cases hv
    | object members => cases hv
    | _ => exact hk
  array k items hk h := by
    have hitems : itemNesting items ≤ limit - k - 2 :=
      itemNesting_le_iff.mpr fun v hv => by
        have := h v hv
        omega
    rw [nesting]
    omega
  object k hk := hk
  put k ms key v hms hv _ := by
    have hmembers : memberNesting (Members.put ms key v) ≤ limit - k - 2 := by
      refine memberNesting_le_iff.mpr fun m hm => ?_
      rcases Members.mem_put hm with rfl | hm
      · dsimp only
        omega
      · have hle := memberNesting_le_iff.mp le_rfl m hm
        rw [nesting] at hms
        omega
    rw [nesting] at hms ⊢
    omega

/-- A document that was read has few containers within each other. -/
theorem nesting_lt_of_ofString? {s : String} {v : Json} (h : ofString? s = some v) :
    v.nesting < nestingLimit := by
  have hkept := kept_of_ofString? (builds_nesting nestingLimit) h
  rwa [Nat.zero_add] at hkept

/-! ### Values that come back -/

/-- No number is misspelled and no name stands twice. -/
structure Legible (v : Json) : Prop where
  spelled : v.Spelled
  distinct : v.Distinct

theorem legible_array_iff {vs : List Json} : (array vs).Legible ↔ ∀ v ∈ vs, v.Legible := by
  constructor
  · rintro ⟨hspelled, hdistinct⟩ v hv
    exact ⟨spelled_array_iff.mp hspelled v hv, distinct_array_iff.mp hdistinct v hv⟩
  · exact fun h => ⟨spelled_array_iff.mpr fun v hv => (h v hv).spelled,
      distinct_array_iff.mpr fun v hv => (h v hv).distinct⟩

theorem legible_object_iff {ms : Members Json} :
    (object ms).Legible ↔ ms.keys.Nodup ∧ ∀ m ∈ ms, m.2.Legible := by
  constructor
  · rintro ⟨hspelled, hdistinct⟩
    obtain ⟨hnames, hdistinct⟩ := distinct_object_iff.mp hdistinct
    exact ⟨hnames, fun m hm => ⟨spelled_object_iff.mp hspelled m hm, hdistinct m hm⟩⟩
  · rintro ⟨hnames, h⟩
    exact ⟨spelled_object_iff.mpr fun m hm => (h m hm).spelled,
      distinct_object_iff.mpr ⟨hnames, fun m hm => (h m hm).distinct⟩⟩

theorem legible_string (s : String) : (string s).Legible := ⟨trivial, trivial⟩

theorem legible_number {t : String} (h : IsNumber t) : (number t).Legible := ⟨h, trivial⟩

theorem legible_ofDouble (x : Double) : (ofDouble x).Legible := by
  rw [ofDouble]
  split
  · rename_i h
    exact legible_number (isNumber_double h)
  · exact ⟨trivial, trivial⟩

/-- The text is read as the value, unless too many containers lie within each other. -/
structure Faithful (v : Json) : Prop where
  spelled : v.Spelled
  distinct : v.Distinct
  unreserved : v.Unreserved

theorem Legible.faithful {v : Json} (h : v.Legible) (hunreserved : v.Unreserved) : v.Faithful :=
  ⟨h.spelled, h.distinct, hunreserved⟩

theorem Faithful.ofString?_text {v : Json} (h : v.Faithful) (hnesting : v.nesting < nestingLimit) :
    ofString? v.text = some v :=
  (Json.ofString?_text h.spelled h.distinct hnesting).trans (reread?_of_unreserved v h.unreserved)

theorem faithful_iff {v : Json} : v.Faithful ↔ v.Legible ∧ v.Unreserved :=
  ⟨fun h => ⟨⟨h.spelled, h.distinct⟩, h.unreserved⟩, fun h => h.1.faithful h.2⟩

theorem faithful_array_iff {vs : List Json} : (array vs).Faithful ↔ ∀ v ∈ vs, v.Faithful := by
  simp only [faithful_iff, legible_array_iff, unreserved_array_iff, ← forall_and]

theorem faithful_object_iff {ms : Members Json} :
    (object ms).Faithful ↔
      ms.keys.Nodup ∧ (∀ m ∈ ms.head?, m.1 ≠ numberName) ∧ ∀ m ∈ ms, m.2.Faithful := by
  simp only [faithful_iff, legible_object_iff, unreserved_object_iff, imp_and, forall_and]
  tauto

theorem faithful_string (s : String) : (string s).Faithful := by
  constructor <;> trivial

theorem faithful_number {t : String} (h : IsNumber t) : (number t).Faithful :=
  ⟨h, trivial, trivial⟩

end Json

namespace Kind

theorem legible_json {k : Kind} (v : k.Carrier) : (k.json v).Legible := by
  cases k with
  | float => exact Json.legible_ofDouble _
  | double => exact Json.legible_ofDouble _
  | bool => exact ⟨trivial, trivial⟩
  | byte | sbyte | int | long => exact Json.legible_number (Json.isNumber_intText _)
  | decimal => exact Json.legible_number (Json.isNumber_decimal _)
  | _ => exact Json.legible_string _

/-- Of all kinds but the floating point ones, the scalars are written as texts that are read. -/
theorem faithful_json {k : Kind} {v : k.Carrier} (h : k.Survives v) : (k.json v).Faithful := by
  cases k with
  | float => exact h.elim
  | double => exact h.elim
  | bool => constructor <;> trivial
  | byte | sbyte | int | long => exact Json.faithful_number (Json.isNumber_intText _)
  | decimal => exact Json.faithful_number (Json.isNumber_decimal _)
  | _ => exact Json.faithful_string _

theorem nesting_json {k : Kind} (v : k.Carrier) : (k.json v).nesting = 0 := by
  have hdouble (x : Double) : (Json.ofDouble x).nesting = 0 := by
    rw [Json.ofDouble]
    split <;> rfl
  cases k with
  | float => exact hdouble _
  | double => exact hdouble _
  | _ => rfl

theorem depth_json {k : Kind} (v : k.Carrier) : (k.json v).depth = 0 := by
  have hnesting := nesting_json v
  generalize k.json v = j at hnesting ⊢
  cases j with
  | array items => cases hnesting
  | object members => cases hnesting
  | _ => rfl

end Kind

end Marshal
