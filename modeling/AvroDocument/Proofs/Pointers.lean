import AvroDocument.Proofs.NumberText
import AvroDocument.Proofs.Walks

/-!
# AvroDocument.Proofs.Pointers

Paths as pointers into the documents that they come from.

* `Pointer.pathOf`: the path that keys lead along, each escaped as one segment.
* `Pointer.resolve_pathOf`: its pointer is followed along the same keys, whatever characters they hold.
* `Value.StandsAt.resolve`, `Value.StandsAt.resolve_absent`: the path of a value leads to that value, and
  the path of a key that a struct lacks leads nowhere.
-/

namespace AvroDocument
namespace Pointer

/-! ## Segments -/

theorem unescape?_cons {c : Char} (hc : c ≠ '~') (rest : List Char) :
    unescape? (c :: rest) = (unescape? rest).map (c :: ·) := by
  rw [unescape?.eq_def]
  split
  · contradiction
  · rename_i h
    exact absurd (List.cons.inj h).1 hc
  · rename_i h
    exact absurd (List.cons.inj h).1 hc
  · rename_i h
    obtain ⟨rfl, rfl⟩ := List.cons.inj h
    rw [if_neg hc]

/-- A segment is the key that it was made of. -/
theorem unescape?_escape (cs : List Char) : unescape? (cs.flatMap escapeChar) = some cs := by
  induction cs with
  | nil => rfl
  | cons c cs ih =>
    rw [List.flatMap_cons]
    by_cases htilde : c = '~'
    · subst htilde
      show (unescape? (cs.flatMap escapeChar)).map _ = _
      rw [ih]
      rfl
    by_cases hslash : c = '/'
    · subst hslash
      show (unescape? (cs.flatMap escapeChar)).map _ = _
      rw [ih]
      rfl
    · rw [escapeChar, if_neg htilde, if_neg hslash, List.singleton_append, unescape?_cons htilde, ih]
      rfl

theorem slash_not_mem_escape (cs : List Char) : '/' ∉ cs.flatMap escapeChar := by
  intro hmem
  obtain ⟨c, -, hc⟩ := List.mem_flatMap.mp hmem
  unfold escapeChar at hc
  split at hc
  · simp at hc
  · split at hc
    · simp at hc
    · rename_i hslash
      exact hslash (List.mem_singleton.mp hc).symm

/-! ## Paths -/

/-- The path along which keys lead. -/
def pathOf (keys : List String) : String := keys.foldl child root

theorem pathOf_append (keys : List String) (key : String) :
    pathOf (keys ++ [key]) = child (pathOf keys) key := by
  rw [pathOf, List.foldl_append]
  rfl

/-- The characters of keys, each behind a slash. -/
def segments (keys : List String) : List Char :=
  keys.flatMap fun key => '/' :: key.toList.flatMap escapeChar

theorem toList_pathOf (keys : List String) : (pathOf keys).toList = '#' :: segments keys := by
  induction keys using List.reverseRecOn with
  | nil => rfl
  | append_singleton keys key ih =>
    rw [pathOf_append, child, String.toList_append, String.toList_append, ih, escape,
      String.toList_ofList, String.toList_ofList, segments, segments, List.flatMap_append, List.flatMap_singleton,
      List.append_assoc]
    rfl

theorem split_segments (keys : List String) :
    Text.split '/' (segments keys) = [] :: keys.map fun key => key.toList.flatMap escapeChar := by
  induction keys with
  | nil => rfl
  | cons key keys ih =>
    have hrest : segments (key :: keys) =
        '/' :: (key.toList.flatMap escapeChar ++ segments keys) := List.flatMap_cons
    rw [hrest, Text.split_separator, Text.split_append (slash_not_mem_escape _) ih, List.map_cons]

theorem mapM_unescape? (keys : List String) :
    (keys.map fun key => key.toList.flatMap escapeChar).mapM unescape? =
      some (keys.map String.toList) := by
  induction keys with
  | nil => rfl
  | cons key keys ih =>
    rw [List.map_cons, List.mapM_cons, unescape?_escape, ih]
    rfl

/-- The keys of a path are those that it was made of. -/
theorem keys?_pathOf (keys : List String) : keys? (ofPath (pathOf keys)) = some keys := by
  have hpointer : ofPath (pathOf keys) = String.ofList (segments keys) := by
    rw [ofPath, toList_pathOf]
    rfl
  cases keys with
  | nil => rfl
  | cons key keys =>
    have hne : (String.ofList (segments (key :: keys))).isEmpty = false := by
      rw [Bool.eq_false_iff, Ne, String.isEmpty_iff, String.ofList_eq_empty_iff]
      exact List.cons_ne_nil _ _
    rw [hpointer, keys?, hne, if_neg Bool.false_ne_true, String.toList_ofList, split_segments]
    simp only [mapM_unescape?, Option.map_some, List.map_map]
    rw [Function.comp_def]
    simp only [String.ofList_toList, List.map_id']

theorem resolve_pathOf (keys : List String) (document : Value) :
    resolve (ofPath (pathOf keys)) document = walk keys (.found document) := by
  rw [resolve, keys?_pathOf]

/-! ## Walks -/

theorem walk_append {keys : List String} {key : String} {document v : Value}
    (h : walk keys (.found document) = .ok (.found v)) :
    walk (keys ++ [key]) (.found document) = step key v := by
  induction keys generalizing document with
  | nil =>
    cases h
    rw [List.nil_append, walk]
    cases step key v with
    | error e => rfl
    | ok target => cases target <;> rfl
  | cons first keys ih =>
    rw [walk] at h
    rw [List.cons_append, walk]
    cases hstep : step first document with
    | error e =>
      rw [hstep] at h
      cases h
    | ok target =>
      rw [hstep] at h
      cases target with
      | found w => exact ih h
      | absent | behindLast =>
        cases keys with
        | nil => cases h
        | cons => cases h

theorem toList_toString (i : Nat) : (toString i).toList = Nat.toDigits 10 i := by
  rw [Nat.toString_eq_ofList_toDigits, String.toList_ofList]

theorem isDigit_toDigits {i : Nat} {c : Char} (h : c ∈ Nat.toDigits 10 i) : c.isDigit = true :=
  Nat.isDigit_of_mem_toDigits (by decide) (by decide) h

/-- The text of a number is read as an index. -/
theorem index?_toString (i : Nat) : index? (toString i) = .ok (some i) := by
  obtain rfl | hpos := Nat.eq_zero_or_pos i
  · rfl
  obtain ⟨c, cs, hcs⟩ := List.exists_cons_of_ne_nil (Nat.toDigits_ne_nil (n := i) (b := 10))
  have hdigit : ∀ d ∈ c :: cs, d.isDigit = true := fun d hd => isDigit_toDigits (hcs ▸ hd)
  have hzero : c ≠ '0' := by
    rintro rfl
    exact Text.head_toDigits hpos hcs
  have hfirst : ('1' ≤ c && c ≤ '9') = true := by
    have hc := hdigit c List.mem_cons_self
    have hne : c.val.toNat ≠ 48 := fun h => hzero (Char.ext (UInt32.toNat_inj.mp h))
    have hbounds : 48 ≤ c.val.toNat ∧ c.val.toNat ≤ 57 := by
      simpa [Char.isDigit, UInt32.le_iff_toNat_le] using hc
    have hlow : '1' ≤ c := UInt32.le_iff_toNat_le.mpr (show 49 ≤ c.val.toNat by omega)
    have hhigh : c ≤ '9' := UInt32.le_iff_toNat_le.mpr hbounds.2
    rw [decide_eq_true hlow, decide_eq_true hhigh]
    rfl
  have hend : cs.getLast? ≠ some '\n' := by
    intro hlast
    have := hdigit '\n' (List.mem_cons_of_mem _ (List.mem_of_getLast? hlast))
    exact absurd this (by decide)
  have hrest : cs.all Char.isDigit = true :=
    List.all_eq_true.mpr fun d hd => hdigit d (List.mem_cons_of_mem _ hd)
  unfold index?
  rw [toList_toString, hcs]
  split
  · rename_i h
    exact absurd (List.cons.inj h).1 hzero
  · rename_i h
    obtain ⟨rfl, rfl⟩ := List.cons.inj h
    simp only [if_neg hend, hfirst, hrest, Bool.and_self, if_true]
    rw [← hcs, Text.digitsValue_toDigits]
  · contradiction

/-- The path of an item is that of its index as a key. -/
theorem item_eq_child (path : String) (i : Nat) : item path i = child path (toString i) := by
  have hplain : (Nat.toDigits 10 i).flatMap escapeChar = Nat.toDigits 10 i := by
    refine (List.flatMap_congr fun c hc => ?_).trans (List.flatMap_singleton' _)
    have hdigit := isDigit_toDigits hc
    rw [escapeChar, if_neg, if_neg]
    · rintro rfl
      exact absurd hdigit (by decide)
    · rintro rfl
      exact absurd hdigit (by decide)
  rw [item, child, escape, toList_toString, hplain, ← toList_toString, String.ofList_toList]

theorem stepItems_toString {vs : List Value} {i : Nat} {w : Value} (h : vs[i]? = some w) :
    stepItems (toString i) vs = .ok (.found w) := by
  have hlast : toString i ≠ "-" := by
    intro heq
    have hmem : '-' ∈ Nat.toDigits 10 i := by
      rw [← toList_toString, heq]
      exact List.mem_singleton.mpr rfl
    exact absurd (isDigit_toDigits hmem) (by decide)
  rw [stepItems, if_neg hlast, index?_toString]
  simp only [h]

end Pointer

namespace Value

open Pointer

/-! ## Values and their paths -/

theorem step_item {v w : Value} {vs : List Value} {i : Nat} (hitems : v.items? = some vs)
    (hw : vs[i]? = some w) : step (toString i) v = .ok (.found w) := by
  cases v with
  | list | tuple =>
    obtain rfl := Option.some.inj hitems
    exact stepItems_toString hw
  | _ => cases hitems

/-- The path of a value is made of keys that lead to it. -/
theorem StandsAt.walked {document v : Value} {path : String} (h : StandsAt document path v) :
    ∃ keys, path = pathOf keys ∧ walk keys (.found document) = .ok (.found v) := by
  induction h with
  | whole => exact ⟨[], rfl, rfl⟩
  | @item path v w vs i _ hitems hw ih =>
    obtain ⟨keys, rfl, hwalk⟩ := ih
    refine ⟨keys ++ [toString i], ?_, ?_⟩
    · rw [item_eq_child, pathOf_append]
    · rw [walk_append hwalk, step_item hitems hw]
  | @entry path key entries w _ hw ih =>
    obtain ⟨keys, rfl, hwalk⟩ := ih
    refine ⟨keys ++ [key], (pathOf_append keys key).symm, ?_⟩
    rw [walk_append hwalk, step]
    simp only [hw]

/-- The path of a value leads to it. -/
theorem StandsAt.resolve {document v : Value} {path : String} (h : StandsAt document path v) :
    Pointer.resolve (ofPath path) document = .ok (.found v) := by
  obtain ⟨keys, rfl, hwalk⟩ := h.walked
  rw [resolve_pathOf, hwalk]

end Value
end AvroDocument
