import AvroDocument.Proofs.Declarations

/-!
# AvroDocument.Proofs.Bounds

What bounds a recursion.

* `Returns`: a recursion comes to a result when its calls may be nested deep enough.
* `unseen`: the number of items that were not seen; a new one leaves less of them.
* `Json.nodes`: all trees inside a tree, as many as it has nodes.
* `Json.nodes_sublist`: what is inside a tree inside another one is inside the other one.
-/

namespace AvroDocument

/-- A recursion that gives nothing when its calls are nested deeper than a bound comes to a result: it
does so under all bounds from one on. -/
def Returns {β : Type} (call : Nat → Option β) (result : β) : Prop :=
  ∃ depth, ∀ deeper, depth ≤ deeper → call deeper = some result

/-! ## What was not seen yet -/

section unseen

variable {α : Type} [BEq α] {all seen seen' : List α} {a : α}

/-- The number of items that were not seen. -/
def unseen (all seen : List α) : Nat := (all.filter fun a => !seen.contains a).length

theorem unseen_le (all seen : List α) : unseen all seen ≤ all.length := List.length_filter_le _ _

variable [LawfulBEq α]

theorem unseen_mono (all : List α) (h : seen ⊆ seen') : unseen all seen' ≤ unseen all seen := by
  unfold unseen
  rw [← List.countP_eq_length_filter, ← List.countP_eq_length_filter]
  refine List.countP_mono_left fun a _ hnot => ?_
  simp only [Bool.not_eq_true', List.contains_eq_mem, decide_eq_false_iff_not] at hnot ⊢
  exact fun hmem => hnot (h hmem)

/-- A new item leaves less. -/
theorem unseen_cons (hmem : a ∈ all) (hnew : seen.contains a = false) :
    unseen all (a :: seen) < unseen all seen := by
  have hsplit : all.filter (fun b => !(a :: seen).contains b) =
      (all.filter fun b => !seen.contains b).filter (· != a) := by
    rw [List.filter_filter]
    refine List.filter_congr fun b _ => ?_
    rw [List.contains_cons, Bool.not_or]
    rfl
  unfold unseen
  rw [hsplit, List.length_filter_lt_length_iff_exists]
  exact ⟨a, List.mem_filter.mpr ⟨hmem, by rw [hnew]; rfl⟩, by simp⟩

end unseen

/-! ## What is inside a tree -/

namespace Json

mutual

/-- All trees inside a tree, itself first. -/
def nodes : Json → List Json
  | arr js => arr js :: itemNodes js
  | obj ms => obj ms :: memberNodes ms
  | j => [j]

def itemNodes : List Json → List Json
  | [] => []
  | j :: js => nodes j ++ itemNodes js

def memberNodes : List (String × Json) → List Json
  | [] => []
  | (_, j) :: ms => nodes j ++ memberNodes ms

end

mutual

theorem length_nodes (j : Json) : j.nodes.length = j.nodeCount := by
  match j with
  | arr js => rw [nodes, nodeCount, List.length_cons, length_itemNodes js, Nat.add_comm]
  | obj ms => rw [nodes, nodeCount, List.length_cons, length_memberNodes ms, Nat.add_comm]
  | null | bool _ | int _ | float _ | decimal _ | str _ => rfl

theorem length_itemNodes (js : List Json) : (itemNodes js).length = itemCount js := by
  match js with
  | [] => rfl
  | j :: js => rw [itemNodes, itemCount, List.length_append, length_nodes j, length_itemNodes js]

theorem length_memberNodes (ms : List (String × Json)) :
    (memberNodes ms).length = memberCount ms := by
  match ms with
  | [] => rfl
  | (_, j) :: ms =>
    rw [memberNodes, memberCount, List.length_append, length_nodes j, length_memberNodes ms]

end

theorem self_mem_nodes (j : Json) : j ∈ j.nodes := by
  cases j with
  | arr js | obj ms => exact List.mem_cons_self
  | _ => exact List.mem_singleton_self _

mutual

/-- What is inside a tree inside another one is inside the other one. -/
theorem nodes_sublist {j k : Json} (h : k ∈ j.nodes) : k.nodes.Sublist j.nodes := by
  match j with
  | arr js =>
    rcases List.mem_cons.mp h with rfl | h
    · exact .refl _
    · exact (itemNodes_sublist h).cons _
  | obj ms =>
    rcases List.mem_cons.mp h with rfl | h
    · exact .refl _
    · exact (memberNodes_sublist h).cons _
  | null | bool _ | int _ | float _ | decimal _ | str _ =>
    exact List.mem_singleton.mp h ▸ .refl _

theorem itemNodes_sublist {js : List Json} {k : Json} (h : k ∈ itemNodes js) :
    k.nodes.Sublist (itemNodes js) := by
  match js with
  | [] => cases h
  | j :: js =>
    rcases List.mem_append.mp h with h | h
    · exact (nodes_sublist h).trans (List.sublist_append_left _ _)
    · exact (itemNodes_sublist h).trans (List.sublist_append_right _ _)

theorem memberNodes_sublist {ms : List (String × Json)} {k : Json} (h : k ∈ memberNodes ms) :
    k.nodes.Sublist (memberNodes ms) := by
  match ms with
  | [] => cases h
  | (_, j) :: ms =>
    rcases List.mem_append.mp h with h | h
    · exact (nodes_sublist h).trans (List.sublist_append_left _ _)
    · exact (memberNodes_sublist h).trans (List.sublist_append_right _ _)

end

theorem nodes_item {j : Json} {js : List Json} (h : j ∈ js) : j ∈ (arr js).nodes := by
  refine List.mem_cons_of_mem _ ?_
  induction h with
  | head => exact List.mem_append_left _ (self_mem_nodes _)
  | tail _ _ ih => exact List.mem_append_right _ ih

theorem nodes_member {m : String × Json} {ms : List (String × Json)} (h : m ∈ ms) :
    m.2 ∈ (obj ms).nodes := by
  refine List.mem_cons_of_mem _ ?_
  induction h with
  | head => exact List.mem_append_left _ (self_mem_nodes _)
  | tail _ _ ih => exact List.mem_append_right _ ih

theorem nodes_get {j v : Json} {key : String} (h : j.get? key = some v) : v ∈ j.nodes := by
  cases j with
  | obj ms => exact nodes_member (mem_of_lookup? h)
  | _ => cases h

section inside

variable {schema node j : Json} (hnode : node ∈ schema.nodes)

include hnode

theorem nodes_trans (h : j ∈ node.nodes) : j ∈ schema.nodes := (nodes_sublist hnode).subset h

theorem nodeCount_le_of_mem : node.nodeCount ≤ schema.nodeCount := by
  rw [← length_nodes, ← length_nodes]
  exact (nodes_sublist hnode).length_le

end inside

end Json

end AvroDocument
