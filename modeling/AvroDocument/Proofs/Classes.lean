import AvroDocument.Proofs.Preparation

/-!
# AvroDocument.Proofs.Classes

The class of some values, their keys and what may be missing, read off the values and not off counts.

* `keysOf_eq`: keys stand in the order of first observation.
* `Throughout`: what all values beside null have in common.
* `classify_cases`: what it says of values to be of a class.
* `classify_structs`, `classify_lists`, `classify_scalars`: which values are of a class.
* `mayMiss_iff`: a key may be missing exactly when a struct lacks it or null was seen under it.
-/

namespace AvroDocument

/-- Whether a value is a list or a tuple. -/
def Value.IsList (v : Value) : Prop := v.kind? = some .list

instance (v : Value) : Decidable v.IsList := inferInstanceAs (Decidable (_ = _))

theorem Value.IsList.items {v : Value} (h : v.IsList) : ∃ ws, v.items? = some ws := by
  cases v with
  | list ws | tuple ws => exact ⟨ws, rfl⟩
  | int n =>
    simp only [IsList, kind?, Option.some.injEq] at h
    split at h <;> cases h
  | _ => cases h

theorem Value.isList_of_items {v : Value} {ws : List Value} (h : v.items? = some ws) :
    v.IsList := by
  cases v with
  | list ws | tuple ws => rfl
  | _ => cases h

namespace Inference

/-! ## Keys in the order of first observation -/

theorem keys_tallyFrom (counts : List (String × Nat)) (ks : List String) :
    (tallyFrom counts ks).map (·.1) =
      counts.map (·.1) ++ (ks.filter fun k => !(counts.map (·.1)).contains k).eraseDups := by
  induction ks generalizing counts with
  | nil => simp [tallyFrom]
  | cons k ks ih =>
    rw [tallyFrom, List.foldl_cons, ← tallyFrom, ih, keys_assign]
    by_cases hk : k ∈ counts.map (·.1)
    · rw [if_pos hk, List.filter_cons_of_neg (by simpa using hk)]
    · rw [if_neg hk, List.filter_cons_of_pos (by simpa using hk), List.eraseDups_cons,
        List.append_assoc, List.singleton_append, List.filter_filter]
      congr 4
      funext other
      rw [List.contains_append, List.contains_cons, List.contains_nil, Bool.or_false,
        Bool.not_or, Bool.and_comm]

/-- The keys of the structs among some values, each where it was observed first. -/
theorem keysOf_eq (vs : List Value) : keysOf vs = (vs.flatMap textKeys).eraseDups := by
  rw [keysOf, tally, keys_tallyFrom, List.map_nil, List.nil_append]
  exact congrArg _ (List.filter_eq_self.mpr fun _ _ => rfl)

/-! ## Classes -/

/-- Not all of some values are null, and those that are not have a property. -/
def Throughout (p : Value → Prop) (vs : List Value) : Prop :=
  (∃ v ∈ vs, v ≠ .null) ∧ ∀ v ∈ vs, v ≠ .null → p v

theorem structs_eq_zero {vs : List Value} :
    (Shape.ofValues vs).structs = 0 ↔ ∀ v ∈ vs, ¬ v.IsStruct := by
  rw [Shape.ofValues_structs, List.countP_eq_zero]
  simp only [decide_eq_true_eq, Value.IsStruct]

theorem lists_eq_zero {vs : List Value} :
    (Shape.ofValues vs).lists = 0 ↔ ∀ v ∈ vs, ¬ v.IsList := by
  rw [Shape.ofValues_lists, List.countP_eq_zero]
  simp only [decide_eq_true_eq, Value.IsList]

theorem leafType?_struct {v : Value} (h : v.IsStruct) : leafType? v = none := by
  rw [h.eq]
  rfl

theorem leafType?_list {v : Value} (h : v.IsList) : leafType? v = none := by
  cases v with
  | null | list _ | tuple _ | struct _ => rfl
  | int n =>
    obtain ⟨ws, hws⟩ := h.items
    cases hws
  | _ => cases h

theorem not_list_struct {v : Value} (h : v.IsStruct) : ¬ v.IsList := by
  rw [h.eq]
  exact nofun

theorem classify_null {vs : List Value} (h : ∀ v ∈ vs, v = .null) : classify vs = .nothing := by
  have hc : widenedType? vs = none := widenedType?_eq_none.mpr fun v hv => by rw [h v hv]; rfl
  have hs : (Shape.ofValues vs).structs = 0 :=
    structs_eq_zero.mpr fun v hv => by rw [h v hv]; decide
  have hl : (Shape.ofValues vs).lists = 0 :=
    lists_eq_zero.mpr fun v hv => by rw [h v hv]; decide
  simp [classify, Shape.categories, Shape.ofValues_scalar, hc, hs, hl]

section throughout

variable {property : Value → Prop} {vs : List Value} (h : Throughout property vs)

include h

theorem Throughout.no_structs (hp : ∀ v, property v → ¬ v.IsStruct) :
    (Shape.ofValues vs).structs = 0 := structs_eq_zero.mpr fun v hv hs => by
  have hnull : v ≠ .null := fun e => by subst e; cases hs
  exact hp v (h.2 v hv hnull) hs

theorem Throughout.no_lists (hp : ∀ v, property v → ¬ v.IsList) :
    (Shape.ofValues vs).lists = 0 := lists_eq_zero.mpr fun v hv hl => by
  have hnull : v ≠ .null := fun e => by subst e; cases hl
  exact hp v (h.2 v hv hnull) hl

theorem Throughout.no_leaves (hp : ∀ v, property v → leafType? v = none) :
    widenedType? vs = none := widenedType?_eq_none.mpr fun v hv => by
  by_cases hnull : v = .null
  · rw [hnull]
    rfl
  · exact hp v (h.2 v hv hnull)

end throughout

theorem classify_structs {vs : List Value} (h : Throughout Value.IsStruct vs) :
    classify vs = .record := by
  have hc := h.no_leaves fun _ => leafType?_struct
  have hl := h.no_lists fun _ => not_list_struct
  have hs : 0 < (Shape.ofValues vs).structs := by
    obtain ⟨⟨v, hv, hn⟩, hall⟩ := h
    rw [Nat.pos_iff_ne_zero, Ne, structs_eq_zero]
    exact fun hno => hno v hv (hall v hv hn)
  simp [classify, Shape.categories, Shape.ofValues_scalar, hc, hs, hl]

theorem classify_lists {vs : List Value} (h : Throughout Value.IsList vs) :
    classify vs = if vs.flatMap (inside .items) = [] then .emptyArray else .array := by
  have hc := h.no_leaves fun _ => leafType?_list
  have hs := h.no_structs fun _ hlist hstruct => not_list_struct hstruct hlist
  have hl : 0 < (Shape.ofValues vs).lists := by
    obtain ⟨⟨v, hv, hn⟩, hall⟩ := h
    rw [Nat.pos_iff_ne_zero, Ne, lists_eq_zero]
    exact fun hno => hno v hv (hall v hv hn)
  have hi : (Shape.ofValues vs).items = 0 ↔ vs.flatMap (inside .items) = [] := by
    rw [Shape.ofValues_items, List.length_eq_zero_iff]
  simp only [classify, Shape.categories, Shape.ofValues_scalar, hc, hs, hl, hi]
  rfl

/-- Types that are all the same or missing widen to that type. -/
theorem foldl_widenBy_same {type : Json} (hmem : type ∈ scalarTypes) {types : List (Option Json)}
    (h : ∀ t ∈ types, t = none ∨ t = some type) : types.foldl widenBy (some type) = some type := by
  induction types with
  | nil => rfl
  | cons t types ih =>
    have hrest := ih fun u hu => h u (List.mem_cons_of_mem _ hu)
    rcases h t List.mem_cons_self with rfl | rfl
    · exact hrest
    · rw [List.foldl_cons, widenBy, widen, if_pos (same_self hmem), hrest]

theorem widenedType?_same {type : Json} {vs : List Value} (hex : ∃ v ∈ vs, leafType? v = some type)
    (h : ∀ v ∈ vs, leafType? v = none ∨ leafType? v = some type) :
    widenedType? vs = some type := by
  induction vs with
  | nil =>
    obtain ⟨v, hv, _⟩ := hex
    cases hv
  | cons w vs ih =>
    rw [widenedType?_cons]
    rcases h w List.mem_cons_self with hw | hw
    · rw [hw]
      refine ih ?_ fun v hv => h v (List.mem_cons_of_mem _ hv)
      obtain ⟨v, hv, ht⟩ := hex
      rcases List.mem_cons.mp hv with rfl | hv
      · rw [hw] at ht
        cases ht
      · exact ⟨v, hv, ht⟩
    · rw [hw]
      refine foldl_widenBy_same (leafType?_mem hw) fun t ht => ?_
      obtain ⟨v, hv, rfl⟩ := List.mem_map.mp ht
      exact h v (List.mem_cons_of_mem _ hv)

theorem classify_scalars {type : Json} {vs : List Value}
    (h : Throughout (fun v => leafType? v = some type) vs) : classify vs = .scalar type := by
  have hs := h.no_structs fun v ht hstruct => by
    rw [leafType?_struct hstruct] at ht
    cases ht
  have hl := h.no_lists fun v ht hlist => by
    rw [leafType?_list hlist] at ht
    cases ht
  have hc : widenedType? vs = some type := by
    obtain ⟨⟨v, hv, hn⟩, hall⟩ := h
    refine widenedType?_same ⟨v, hv, hall v hv hn⟩ fun w hw => ?_
    by_cases hnull : w = .null
    · rw [hnull]
      exact .inl rfl
    · exact .inr (hall w hw hnull)
  simp [classify, Shape.categories, Shape.ofValues_scalar, hc, hs, hl]

/-- What it says of supported values to be of a class. -/
theorem classify_cases {vs : List Value} (hs : ∀ v ∈ vs, Supported v) :
    match classify vs with
    | .nothing => ∀ v ∈ vs, v = .null
    | .mixed => ∃ v ∈ vs, v ≠ .null
    | .scalar type => (∃ v ∈ vs, v ≠ .null) ∧
        (type = widest ∨ Throughout (fun v => leafType? v = some type) vs)
    | .record => Throughout Value.IsStruct vs
    | .emptyArray => Throughout Value.IsList vs ∧ vs.flatMap (inside .items) = []
    | .array => Throughout Value.IsList vs ∧ vs.flatMap (inside .items) ≠ [] := by
  have hspec := classify_spec vs
  have hforms := fun v (hv : v ∈ vs) => forms_of_classify hs hv
  have hex : classify vs ≠ .nothing → ∃ v ∈ vs, v ≠ .null := fun hne =>
    Classical.byContradiction fun hno => hne (classify_null fun v hv =>
      Classical.byContradiction fun hn => hno ⟨v, hv, hn⟩)
  cases h : classify vs <;> simp only [h] at hspec hforms hex
  case nothing => exact fun v hv => (hforms v hv).resolve_right id
  case mixed => exact hex Category.noConfusion
  case scalar type =>
    refine ⟨hex Category.noConfusion, ?_⟩
    by_cases hw : type = widest
    · exact .inl hw
    · refine .inr ⟨hex Category.noConfusion, fun v hv hn => ?_⟩
      obtain ⟨t, ht, htype⟩ := (hforms v hv).resolve_left hn
      rw [ht, htype.resolve_right hw]
  case record =>
    refine ⟨hex Category.noConfusion, fun v hv hn => ?_⟩
    obtain ⟨es, rfl⟩ := (hforms v hv).resolve_left hn
    rfl
  case emptyArray =>
    refine ⟨⟨hex Category.noConfusion, fun v hv hn => ?_⟩, hspec.2.2⟩
    exact Value.isList_of_items ((hforms v hv).resolve_left hn)
  case array =>
    refine ⟨⟨hex Category.noConfusion, fun v hv hn => ?_⟩, hspec.2.2⟩
    obtain ⟨ws, hws⟩ := (hforms v hv).resolve_left hn
    exact Value.isList_of_items hws

theorem classify_nothing_iff {vs : List Value} (hs : ∀ v ∈ vs, Supported v) :
    classify vs = .nothing ↔ ∀ v ∈ vs, v = .null := by
  refine ⟨fun h => ?_, classify_null⟩
  have hcases := classify_cases hs
  rwa [h] at hcases

theorem classify_record_iff {vs : List Value} (hs : ∀ v ∈ vs, Supported v) :
    classify vs = .record ↔ Throughout Value.IsStruct vs := by
  refine ⟨fun h => ?_, classify_structs⟩
  have hcases := classify_cases hs
  rwa [h] at hcases

theorem classify_lists_iff {vs : List Value} (hs : ∀ v ∈ vs, Supported v) :
    classify vs = .emptyArray ∨ classify vs = .array ↔ Throughout Value.IsList vs := by
  constructor
  · have hcases := classify_cases hs
    rintro (h | h) <;> (rw [h] at hcases; exact hcases.1)
  · intro h
    rw [classify_lists h]
    split
    · exact .inl rfl
    · exact .inr rfl

/-! ## What may be missing -/

/-- If all structs carry a key, it occurs once for each of them at least. -/
theorem countP_struct_le {vs : List Value} {key : String}
    (h : ∀ v ∈ vs, v.IsStruct → key ∈ textKeys v) :
    (vs.countP fun v => v.kind? = some .struct) ≤ (vs.flatMap textKeys).count key := by
  induction vs with
  | nil => exact Nat.le_refl _
  | cons v vs ih =>
    have hrest := ih fun w hw => h w (List.mem_cons_of_mem _ hw)
    rw [List.flatMap_cons, List.count_append, List.countP_cons]
    by_cases hk : v.IsStruct
    · have hone := List.count_pos_iff.mpr (h v List.mem_cons_self hk)
      rw [show v.kind? = some .struct from hk]
      simp only [decide_true, if_true]
      omega
    · rw [show decide (v.kind? = some .struct) = false from decide_eq_false hk, if_neg (by simp)]
      omega

theorem countP_null_pos_iff {vs : List Value} :
    decide (0 < vs.countP fun v => v.kind? = some .null) = true ↔ Value.null ∈ vs := by
  refine ⟨fun h => ?_, countP_null_pos⟩
  rw [decide_eq_true_eq, List.countP_pos_iff] at h
  obtain ⟨v, hv, hk⟩ := h
  rw [decide_eq_true_eq, kind?_null] at hk
  exact hk ▸ hv

/-- A key may be missing exactly when some struct lacks it or null was observed under it. -/
theorem mayMiss_iff {vs : List Value} (hd : ∀ v ∈ vs, (v.entries.map (·.1)).Nodup)
    {key : String} :
    mayMiss vs key = true ↔ (∃ v ∈ vs, v.IsStruct ∧ key ∉ textKeys v) ∨
      Value.null ∈ vs.flatMap (inside (.key key)) := by
  constructor
  · intro h
    rw [mayMiss, Bool.or_eq_true, countP_null_pos_iff, decide_eq_true_eq] at h
    refine h.imp_left fun hlt => Classical.byContradiction fun hno => ?_
    have hall : ∀ v ∈ vs, v.IsStruct → key ∈ textKeys v := fun v hv hk =>
      Classical.byContradiction fun hmissing => hno ⟨v, hv, hk, hmissing⟩
    have hle := countP_struct_le hall
    omega
  · rintro (⟨v, hv, hk, hmissing⟩ | hnull)
    · rw [hk.eq] at hv hmissing
      exact mayMiss_of_lacking hd hv hmissing
    · rw [mayMiss, countP_null_pos hnull, Bool.or_true]

end Inference
end AvroDocument
