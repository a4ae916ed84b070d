import AvroDocument.Proofs.Naming
import Mathlib.Data.List.Forall2
import Mathlib.Data.List.Perm.Basic

/-!
# AvroDocument.Proofs.Matching

Lists whose items can be paired off in some order.

* `Matched`: lists of which a relation holds item by item once the second is put in another order.
* `forall₂_mergeSort_iff`: sorting both lists finds such an order, if there is one.
-/

namespace AvroDocument

variable {α β γ δ : Type}

/-- The items of two lists can be paired off so that a relation holds of each pair. -/
def Matched (R : α → β → Prop) (xs : List α) (ys : List β) : Prop :=
  ∃ zs, List.Forall₂ R xs zs ∧ zs.Perm ys

/-- A pairing, as a list of pairs. -/
theorem matched_iff_pairs {R : α → β → Prop} {xs : List α} {ys : List β} :
    Matched R xs ys ↔ ∃ pairs : List (α × β),
      xs = pairs.map (·.1) ∧ ys.Perm (pairs.map (·.2)) ∧ ∀ p ∈ pairs, R p.1 p.2 := by
  constructor
  · rintro ⟨zs, hall, hperm⟩
    obtain ⟨hlength, hzip⟩ := List.forall₂_iff_zip.mp hall
    refine ⟨xs.zip zs, (List.map_fst_zip (Nat.le_of_eq hlength)).symm, ?_, fun p hp => hzip hp⟩
    rw [List.map_snd_zip (Nat.le_of_eq hlength.symm)]
    exact hperm.symm
  · rintro ⟨pairs, rfl, hperm, hall⟩
    refine ⟨pairs.map (·.2), ?_, hperm.symm⟩
    rw [List.forall₂_map_left_iff, List.forall₂_map_right_iff]
    exact List.forall₂_same.mpr hall

theorem Matched.mono {R S : α → β → Prop} {xs : List α} {ys : List β}
    (h : ∀ x ∈ xs, ∀ y ∈ ys, R x y → S x y) : Matched R xs ys → Matched S xs ys := by
  rw [matched_iff_pairs, matched_iff_pairs]
  rintro ⟨pairs, rfl, hperm, hall⟩
  refine ⟨pairs, rfl, hperm, fun p hp => h _ (List.mem_map_of_mem hp) _ ?_ (hall p hp)⟩
  exact hperm.mem_iff.mpr (List.mem_map_of_mem hp)

theorem matched_congr {R S : α → β → Prop} {xs : List α} {ys : List β}
    (h : ∀ x ∈ xs, ∀ y ∈ ys, R x y ↔ S x y) : Matched R xs ys ↔ Matched S xs ys :=
  ⟨.mono fun x hx y hy => (h x hx y hy).mp, .mono fun x hx y hy => (h x hx y hy).mpr⟩

theorem matched_map {R : γ → δ → Prop} {f : α → γ} {g : β → δ} {xs : List α} {ys : List β} :
    Matched R (xs.map f) (ys.map g) ↔ Matched (fun x y => R (f x) (g y)) xs ys := by
  constructor
  · rintro ⟨zs, hall, hperm⟩
    -- An order of the images is an order of the items themselves.
    have himage : List.Forall₂ (fun z y => z = g y) (ys.map g) ys := by
      rw [List.forall₂_map_left_iff]
      exact List.forall₂_same.mpr fun _ _ => rfl
    obtain ⟨ys', himage', hperm'⟩ := List.perm_comp_forall₂ hperm himage
    obtain rfl : zs = ys'.map g := List.forall₂_eq_eq_eq ▸ List.forall₂_map_right_iff.mpr himage'
    rw [List.forall₂_map_left_iff, List.forall₂_map_right_iff] at hall
    exact ⟨ys', hall, hperm'⟩
  · rintro ⟨zs, hall, hperm⟩
    refine ⟨zs.map g, ?_, hperm.map g⟩
    rw [List.forall₂_map_left_iff, List.forall₂_map_right_iff]
    exact hall

/-- Two sorted lists are related item by item exactly when their items can be paired off, if related
items are in the same order and only equal ones are in none. -/
theorem forall₂_mergeSort_iff {R : α → α → Prop} {le : α → α → Bool} {xs ys : List α}
    (trans : ∀ a b c, le a b = true → le b c = true → le a c = true)
    (total : ∀ a b, (le a b || le b a) = true)
    (antisymm : ∀ a ∈ ys, ∀ b ∈ ys, le a b = true → le b a = true → a = b)
    (hle : ∀ x ∈ xs, ∀ x' ∈ xs, ∀ y ∈ ys, ∀ y' ∈ ys, R x y → R x' y' → le x x' = le y y') :
    List.Forall₂ R (xs.mergeSort le) (ys.mergeSort le) ↔ Matched R xs ys := by
  constructor
  · intro hall
    obtain ⟨zs, hall', hperm⟩ := List.perm_comp_forall₂ (List.mergeSort_perm xs le).symm hall
    exact ⟨zs, hall', hperm.trans (List.mergeSort_perm ys le)⟩
  · rw [matched_iff_pairs]
    rintro ⟨pairs, rfl, hperm, hall⟩
    have hmem : ∀ p ∈ pairs, p.2 ∈ ys := fun p hp => hperm.mem_iff.mpr (List.mem_map_of_mem hp)
    have hfst : (pairs.mergeSort fun p q => le p.1 q.1).map (·.1) =
        (pairs.map (·.1)).mergeSort le := List.map_mergeSort fun _ _ _ _ => rfl
    have hsnd : (pairs.mergeSort fun p q => le p.1 q.1).map (·.2) =
        (pairs.map (·.2)).mergeSort le :=
      List.map_mergeSort fun p hp q hq =>
        hle _ (List.mem_map_of_mem hp) _ (List.mem_map_of_mem hq) _ (hmem p hp) _ (hmem q hq)
          (hall p hp) (hall q hq)
    rw [Inference.mergeSort_perm_eq trans total antisymm hperm, ← hfst, ← hsnd,
      List.forall₂_map_left_iff, List.forall₂_map_right_iff]
    refine List.forall₂_same.mpr fun p hp => hall p ?_
    exact (List.mergeSort_perm pairs _).mem_iff.mp hp

end AvroDocument
