import Marshal.Proofs.Json.Distinct
import Marshal.Proofs.Json.Node
import Marshal.Proofs.Number.Digits
import Marshal.Proofs.Text.Split

/-!
Paths as JSON Pointers (RFC 6901). A pointer is taken apart into its tokens, and the tokens lead to
a value of the document. The path of a node leads to the value of the node, and to no other node.
-/

namespace Marshal

namespace Json

inductive Edge
  | key (name : String)
  | index (i : Nat)
  deriving DecidableEq

def Edge.token : Edge → String
  | key name => name
  | index i => natText i

def along? : Edge → Json → Option Json
  | .key name, object members => Members.get? members name
  | .index i, array items => items[i]?
  | _, _ => none

def walk? (steps : List Edge) (v : Json) : Option Json :=
  steps.foldlM (fun v s => v.along? s) v

namespace Pointer

/-! ### Reading pointers -/

/-- Puts `c` in the place of every tilde that has `code` behind it, and of `code` with it. -/
def decode (code c : Char) : List Char → List Char
  | x :: y :: cs =>
    if x = '~' ∧ y = code then c :: decode code c cs else x :: decode code c (y :: cs)
  | cs => cs

/-- The characters that a segment stands for: `~1` is read first and then `~0`, so that `~01` does
not become a slash. -/
def unescape (cs : List Char) : List Char :=
  decode '0' '~' (decode '1' '/' cs)

def tokens? : List Char → Option (List String)
  | [] => some []
  | c :: cs =>
    if c = '/' then some ((Text.splitOn '/' cs).map fun p => String.ofList (unescape p)) else none

/-- The place in an array that a token names: digits, with no zero in front of others. -/
def index? (token : String) : Option Nat :=
  match token.toList with
  | '0' :: _ :: _ => none
  | cs => readDigits? cs

def lookup? (token : String) : Json → Option Json
  | object members => Members.get? members token
  | array items => (index? token).bind (items[·]?)
  | _ => none

def eval? (path : String) (doc : Json) : Option Json :=
  (tokens? path.toList).bind fun tokens => tokens.foldlM (fun v t => lookup? t v) doc

/-! ### Reading back what is written -/

section Decode

variable {code c x : Char}

theorem decode_cons_of_ne (hx : x ≠ '~') (cs : List Char) :
    decode code c (x :: cs) = x :: decode code c cs := by
  cases cs with
  | nil => rfl
  | cons y cs => rw [decode, if_neg fun h => hx h.1]

theorem decode_tilde (code c : Char) (cs : List Char) :
    decode code c ('~' :: code :: cs) = c :: decode code c cs := by
  rw [decode, if_pos ⟨rfl, rfl⟩]

theorem decode_tilde_of_ne (hx : x ≠ code) (cs : List Char) :
    decode code c ('~' :: x :: cs) = '~' :: decode code c (x :: cs) := by
  rw [decode, if_neg fun h => hx h.2]

end Decode

def tildeChar (c : Char) : List Char :=
  if c = '~' then ['~', '0'] else [c]

theorem decode_slash_escapeChar (c : Char) (cs : List Char) :
    decode '1' '/' (escapeChar c ++ cs) = tildeChar c ++ decode '1' '/' cs := by
  by_cases htilde : c = '~'
  · subst htilde
    show decode '1' '/' ('~' :: '0' :: cs) = '~' :: '0' :: decode '1' '/' cs
    rw [decode_tilde_of_ne (by decide), decode_cons_of_ne (by decide)]
  · by_cases hslash : c = '/'
    · subst hslash
      exact decode_tilde '1' '/' cs
    · rw [escapeChar, tildeChar, if_neg htilde, if_neg htilde, if_neg hslash]
      exact decode_cons_of_ne htilde cs

theorem decode_tildeChar (c : Char) (cs : List Char) :
    decode '0' '~' (tildeChar c ++ cs) = c :: decode '0' '~' cs := by
  rw [tildeChar]
  split
  · rename_i htilde
    rw [htilde]
    exact decode_tilde '0' '~' cs
  · rename_i htilde
    exact decode_cons_of_ne htilde cs

/-- A segment is read back as the name that was escaped. -/
theorem unescape_segmentChars (segment : String) :
    unescape (segmentChars segment) = segment.toList := by
  have hslash (cs : List Char) :
      decode '1' '/' (cs.flatMap escapeChar) = cs.flatMap tildeChar := by
    induction cs with
    | nil => rfl
    | cons c cs ih => rw [List.flatMap_cons, decode_slash_escapeChar, ih, List.flatMap_cons]
  have htilde (cs : List Char) : decode '0' '~' (cs.flatMap tildeChar) = cs := by
    induction cs with
    | nil => rfl
    | cons c cs ih => rw [List.flatMap_cons, decode_tildeChar, ih]
  rw [unescape, segmentChars, hslash, htilde]

theorem chars_cons (s : String) (segments : List String) :
    chars (s :: segments) = '/' :: ['/'].intercalate ((s :: segments).map segmentChars) := by
  induction segments generalizing s with
  | nil => simp [chars]
  | cons t segments ih =>
      rw [chars, List.flatMap_cons, ← chars, ih t]
      simp [List.intercalate_cons_cons]

/-- The tokens of a path are its segments. -/
theorem tokens?_chars (segments : List String) : tokens? (chars segments) = some segments := by
  cases segments with
  | nil => rfl
  | cons s segments =>
      have hpieces : ∀ p ∈ (s :: segments).map segmentChars, '/' ∉ p :=
        List.forall_mem_map.mpr fun t _ => slash_not_mem_segmentChars t
      have hread (t : String) : String.ofList (unescape (segmentChars t)) = t := by
        rw [unescape_segmentChars, String.ofList_toList]
      have hne : (s :: segments).map segmentChars ≠ [] := List.cons_ne_nil _ _
      rw [chars_cons, tokens?, if_pos rfl, Text.splitOn_intercalate hne hpieces, List.map_map]
      simp [Function.comp_def, hread]

theorem text_injective : Function.Injective text := by
  intro a b h
  have htokens := congrArg (fun path : String => tokens? path.toList) h
  simpa [text, tokens?_chars] using htokens

/-- An index is written without a zero in front, so it is read back. -/
theorem index?_natText (i : Nat) : index? (natText i) = some i := by
  have hread := readDigits?_natChars i
  rw [index?, natText, String.toList_ofList]
  split
  · rename_i d cs h
    have hzero : i = 0 := by
      by_contra hi
      exact natChars_ne_zero_cons hi _ h
    subst hzero
    cases h
  · exact hread

theorem lookup?_token {s : Edge} {v w : Json} (h : v.along? s = some w) :
    lookup? s.token v = some w := by
  cases s with
  | key name =>
      cases v with
      | object members => exact h
      | _ => cases h
  | index i =>
      cases v with
      | array items =>
          rw [Edge.token, lookup?, index?_natText]
          exact h
      | _ => cases h

/-- What steps lead to is what the path of their names leads to. -/
theorem eval?_text {steps : List Edge} {doc v : Json} (h : doc.walk? steps = some v) :
    eval? (text (steps.map Edge.token)) doc = some v := by
  rw [eval?, text, String.toList_ofList, tokens?_chars, Option.bind_some]
  induction steps generalizing doc with
  | nil => exact h
  | cons s steps ih =>
      rw [walk?, List.foldlM_cons] at h
      obtain ⟨w, hw, hrest⟩ := Option.bind_eq_some_iff.mp h
      rw [List.map_cons, List.foldlM_cons, lookup?_token hw]
      exact ih hrest

end Pointer

/-! ### Steps -/

/-- Steps into the same value that have the same name are the same: an object has no indices, and
an array has no names. -/
theorem eq_of_token_eq {s t : Edge} {v w w' : Json} (hs : v.along? s = some w)
    (ht : v.along? t = some w') (h : s.token = t.token) : s = t := by
  cases v with
  | object members =>
      cases s with
      | index i => cases hs
      | key name =>
          cases t with
          | index i => cases ht
          | key name' => exact congrArg Edge.key h
  | array items =>
      cases s with
      | key name => cases hs
      | index i =>
          cases t with
          | key name => cases ht
          | index j =>
              have hindex := congrArg Pointer.index? h
              rw [Edge.token, Edge.token, Pointer.index?_natText, Pointer.index?_natText] at hindex
              exact congrArg Edge.index (Option.some.inj hindex)
  | _ => cases s <;> cases hs

/-- Ways down the same document that have the same names are the same. -/
theorem eq_of_map_token_eq {ss ts : List Edge} {doc v w : Json} (hs : doc.walk? ss = some v)
    (ht : doc.walk? ts = some w) (h : ss.map Edge.token = ts.map Edge.token) : ss = ts := by
  induction ss generalizing ts doc with
  | nil => exact (List.map_eq_nil_iff.mp h.symm).symm
  | cons s ss ih =>
      cases ts with
      | nil => cases h
      | cons t ts =>
          obtain ⟨htoken, hrest⟩ := List.cons.inj h
          rw [walk?, List.foldlM_cons] at hs ht
          obtain ⟨u, hu, hs⟩ := Option.bind_eq_some_iff.mp hs
          obtain ⟨u', hu', ht⟩ := Option.bind_eq_some_iff.mp ht
          obtain rfl := eq_of_token_eq hu hu' htoken
          obtain rfl := Option.some.inj (hu.symm.trans hu')
          rw [ih hs ht hrest]

theorem walk?_concat {steps : List Edge} {s : Edge} {doc v w : Json}
    (h : doc.walk? steps = some v) (hw : v.along? s = some w) :
    doc.walk? (steps ++ [s]) = some w := by
  rw [walk?] at h ⊢
  rw [List.foldlM_append, h]
  simpa using hw

theorem Distinct.along? {v w : Json} (h : v.Distinct) {s : Edge} (hw : v.along? s = some w) :
    w.Distinct := by
  cases v with
  | object members =>
      cases s with
      | index i => cases hw
      | key name => exact (distinct_object_iff.mp h).2 _ (Members.mem_of_get? hw)
  | array items =>
      cases s with
      | key name => cases hw
      | index i => exact distinct_array_iff.mp h w (List.mem_of_getElem? hw)
  | _ => cases s <;> cases hw

end Json

namespace Node

open Json (Edge)

/-- The nodes at and below the root of a document, with the steps that were taken to them. -/
inductive Reached (doc : Json) (maxDepth : Nat) : List Edge → Node → Prop
  | root : Reached doc maxDepth [] (json { value := doc, maxDepth })
  | child {steps : List Edge} {n m : Node} {key : String} (h : Reached doc maxDepth steps n)
      (hm : n.child? key = .ok (some m)) : Reached doc maxDepth (steps ++ [.key key]) m
  | member {steps : List Edge} {n m : Node} {members : Members Node} {key : String}
      (h : Reached doc maxDepth steps n) (hmembers : n.members? = .ok (some members))
      (hm : (key, m) ∈ members) : Reached doc maxDepth (steps ++ [.key key]) m
  | element {steps : List Edge} {n m : Node} {elements : List Node} {i : Nat}
      (h : Reached doc maxDepth steps n) (helements : n.elements? = .ok (some elements))
      (hm : elements[i]? = some m) : Reached doc maxDepth (steps ++ [.index i]) m

/-! ### One step down -/

section

variable {n : JsonNode} {m : Node}

theorem along?_of_child? {key : String} (h : (json n).child? key = .ok (some m)) :
    ∃ v, n.value.along? (.key key) = some v ∧ m = json (n.below key v) := by
  cases hn : n.value with
  | object members =>
      rw [child?_object hn] at h
      cases hget : Members.get? members key with
      | none => simp [hget] at h
      | some v =>
          rw [hget] at h
          obtain ⟨c, hchild, hc⟩ := exists_of_map_ok h
          obtain rfl := JsonNode.eq_below_of_child hchild
          exact ⟨v, hget, (Option.some.inj hc).symm⟩
  | _ =>
      rw [child?_of_not_object (by simp [hn])] at h
      cases h

theorem along?_of_members? {members : Members Node} {key : String} (hdistinct : n.value.Distinct)
    (h : (json n).members? = .ok (some members)) (hm : (key, m) ∈ members) :
    ∃ v, n.value.along? (.key key) = some v ∧ m = json (n.below key v) := by
  rcases members?_json_ok h with ⟨-, hnone⟩ | ⟨ms, hn, hsome⟩
  · cases hnone
  · obtain rfl := Option.some.inj hsome
    obtain ⟨⟨k, v⟩, hkv, heq⟩ := List.mem_map.mp hm
    obtain ⟨rfl, rfl⟩ := Prod.mk.inj heq
    rw [hn] at hdistinct ⊢
    -- The name stands once, so looking it up gives this member.
    exact ⟨v, Members.get?_of_mem (Json.distinct_object_iff.mp hdistinct).1 hkv, rfl⟩

theorem along?_of_elements? {elements : List Node} {i : Nat}
    (h : (json n).elements? = .ok (some elements)) (hm : elements[i]? = some m) :
    ∃ v, n.value.along? (.index i) = some v ∧ m = json (n.below (natText i) v) := by
  rcases elements?_json_ok h with ⟨-, hnone⟩ | ⟨items, hn, hsome⟩
  · cases hnone
  · obtain rfl := Option.some.inj hsome
    rw [JsonNode.itemsBelow, List.getElem?_map, List.getElem?_map, List.getElem?_zipIdx] at hm
    rw [hn]
    cases hv : items[i]? with
    | none => simp [hv] at hm
    | some v => exact ⟨v, hv, by simpa [hv] using hm.symm⟩

end

/-! ### Any number of steps -/

section

variable {doc : Json} {maxDepth : Nat} {steps : List Edge} {n : Node}

theorem exists_walk?_below {v w : Json} {e : Edge} (hv : doc.walk? steps = some v)
    (hdistinct : v.Distinct) (hw : v.along? e = some w) :
    ∃ u, doc.walk? (steps ++ [e]) = some u ∧ u.Distinct ∧
      json (JsonNode.below ⟨v, steps.map Edge.token, maxDepth⟩ e.token w) =
        json ⟨u, (steps ++ [e]).map Edge.token, maxDepth⟩ := by
  refine ⟨w, Json.walk?_concat hv hw, hdistinct.along? hw, ?_⟩
  rw [JsonNode.below, List.map_append]
  rfl

/-- A node is made of the steps that were taken to it, and has the value that they lead to. -/
theorem Reached.exists_walk? (hdoc : doc.Distinct) (h : Reached doc maxDepth steps n) :
    ∃ v, doc.walk? steps = some v ∧ v.Distinct ∧
      n = json ⟨v, steps.map Edge.token, maxDepth⟩ := by
  induction h with
  | root => exact ⟨doc, rfl, hdoc, rfl⟩
  | child _ hm ih =>
      obtain ⟨v, hv, hdistinct, rfl⟩ := ih
      obtain ⟨w, hw, rfl⟩ := along?_of_child? hm
      exact exists_walk?_below hv hdistinct hw
  | member _ hmembers hm ih =>
      obtain ⟨v, hv, hdistinct, rfl⟩ := ih
      obtain ⟨w, hw, rfl⟩ := along?_of_members? hdistinct hmembers hm
      exact exists_walk?_below hv hdistinct hw
  | element _ helements hm ih =>
      obtain ⟨v, hv, hdistinct, rfl⟩ := ih
      obtain ⟨w, hw, rfl⟩ := along?_of_elements? helements hm
      exact exists_walk?_below hv hdistinct hw

end

/-- The path of a node, read as a JSON Pointer, leads from the document to the value that is read at
the node, and it is the path of no node that other steps lead to. No object of the document has a
name twice, as in every document that is read (`Json.distinct_of_ofString?`). -/
theorem path_locates {doc : Json} (hdoc : doc.Distinct) {maxDepth : Nat} {steps : List Edge}
    {n : Node} (h : Reached doc maxDepth steps n) :
    (∃ k : JsonNode, n = json k ∧ Json.Pointer.eval? n.path doc = some k.value) ∧
      ∀ (others : List Edge) (m : Node), Reached doc maxDepth others m → m.path = n.path →
        others = steps := by
  obtain ⟨v, hv, -, rfl⟩ := h.exists_walk? hdoc
  refine ⟨⟨_, rfl, Json.Pointer.eval?_text hv⟩, ?_⟩
  intro others m hm hpath
  obtain ⟨w, hw, -, rfl⟩ := hm.exists_walk? hdoc
  exact Json.eq_of_map_token_eq hw hv (Json.Pointer.text_injective hpath)

def slashedDocument : Json :=
  .object [("a/b", .object [("~1", .array [.null, .object [("", .bool true)]])]), ("0", .null)]

theorem path_locates_slashed :
    slashedDocument.Distinct ∧ ∃ n, Reached slashedDocument 4
      [.key "a/b", .key "~1", .index 1, .key ""] n ∧ n.path = "/a~1b/~01/1/" ∧
      Json.Pointer.eval? n.path slashedDocument = some (.bool true) := by
  have hdoc : slashedDocument.Distinct := by
    simp [slashedDocument, Json.Distinct, Json.DistinctMembers, Json.DistinctItems]
  have h : Reached slashedDocument 4 [.key "a/b", .key "~1", .index 1, .key ""]
      (json { value := .bool true, steps := ["a/b", "~1", "1", ""], maxDepth := 4 }) :=
    .child (.element (.member (.child .root rfl) rfl List.mem_cons_self) rfl rfl) rfl
  obtain ⟨k, hk, heval⟩ := (path_locates hdoc h).1
  cases hk
  exact ⟨hdoc, _, h, rfl, heval⟩

end Node

end Marshal
