import AvroDocument.Proofs.Defaults
import AvroDocument.Proofs.OutlineOrder
import AvroDocument.Schema.Normal

/-!
# AvroDocument.Proofs.OrderIndependence

The inferred schema does not depend on the order of documents, of keys or of items, but for the
order of the fields of a record.

* `normal_scalar`, `normal_fields`: the normal forms of the parts of a schema.
* `Outline.Alike.normal`: outlines that are alike have schemas with one normal form.
* `inferSchema_order_independent`: inference from shuffled documents.
-/

namespace AvroDocument
namespace Inference

open Schema (normalNode normalMembers normalFields Registry)

/-! ## Normal forms -/

section normal

variable (registry : Registry) (fuel : Nat) (enclosing : String) (stack : List String)

theorem normal_null : normalNode registry fuel enclosing stack (.str "null") = .ok (.str "null") := by
  rw [normalNode]
  rfl

theorem normal_scalar {type : Json} (h : type ∈ scalarTypes) :
    normalNode registry fuel enclosing stack type = .ok type := by
  simp only [scalarTypes_eq, List.mem_cons, List.not_mem_nil, or_false] at h
  rcases h with rfl | rfl | rfl | rfl | rfl | rfl | rfl | rfl | rfl <;> (rw [normalNode]; rfl)

/-- A union with null keeps null in front, whatever the order of members. -/
theorem normal_nullable {j n : Json} (h : normalNode registry fuel enclosing stack j = .ok n) :
    normalNode registry fuel enclosing stack (.arr [.str "null", j]) =
      .ok (.arr ([.str "null", n].mergeSort Schema.memberLe)) := by
  rw [normalNode, normalMembers]
  simp only [normal_null, normalMembers, h]

theorem normal_array {j n : Json} (h : normalNode registry fuel enclosing stack j = .ok n) :
    normalNode registry fuel enclosing stack (.obj [("type", .str "array"), ("items", j)]) =
      .ok (.obj [("type", .str "array"), ("items", n)]) := by
  rw [normalNode]
  simp [Schema.typeName, Schema.typeNode, lookup?, Json.text?, h]

/-- The normal form of a field, given that of its type. -/
def normalField (field : FieldKey) (alwaysNull : Bool) (type : Json) :
    Json :=
  .obj ([("name", .str field.name), ("type", type)] ++
    if alwaysNull || field.nullable then [("default", Json.null)] else [])

theorem normal_fields (altNamesKey : String) {keys : List String} {field : String → FieldKey}
    {alwaysNull : String → Bool} {type form : String → Json}
    (h : ∀ k ∈ keys, normalNode registry fuel enclosing stack
      (declaredType (field k) (alwaysNull k) (type k)) = .ok (form k)) :
    normalFields registry fuel enclosing stack (keys.map fun k =>
        .obj (Outline.fieldMembers altNamesKey (field k) (alwaysNull k) (type k))) =
      .ok (keys.map fun k => normalField (field k) (alwaysNull k) (form k)) := by
  induction keys with
  | nil => rw [List.map_nil, normalFields]; rfl
  | cons k keys ih =>
    rw [List.map_cons, normalFields, get_name, get_type, get_default]
    have hk := h k List.mem_cons_self
    simp only [hk, ih fun k hk => h k (List.mem_cons_of_mem _ hk)]
    rw [List.map_cons, normalField]
    cases alwaysNull k || (field k).nullable <;> rfl

theorem normal_record (names : List (Position × String)) (site : RecordSite) (fields : List Json) :
    normalNode registry fuel enclosing stack (.obj (recordMembers names site fields)) =
      let name := Schema.fullName (.obj (recordMembers names site [])) enclosing
      if stack.contains name then .ok (.str name)
      else
        match normalFields registry fuel (Schema.splitName name).1 (name :: stack) fields with
        | .error e => .error e
        | .ok fields =>
          .ok (.obj [("type", .str "record"), ("name", .str name),
            ("fields", .arr (fields.mergeSort Schema.fieldLe))]) := by
  have hname : Schema.fullName (.obj (recordMembers names site fields)) enclosing =
      Schema.fullName (.obj (recordMembers names site [])) enclosing := by
    simp only [Schema.fullName, textOf_name, has_namespace, textOf_namespace]
  have hfields := lookup_fields names site fields
  rw [normalNode]
  simp only [typeName_record, hname, if_true]
  generalize lookup? "fields" (recordMembers names site fields) = found at hfields ⊢
  subst hfields
  rfl

end normal

theorem fieldLe_sorted {fields fields' : List Json} (h : fields.Perm fields')
    (hn : (fields.map Schema.nameOf).Nodup) :
    fields.mergeSort Schema.fieldLe = fields'.mergeSort Schema.fieldLe :=
  mergeSort_perm_eq (fun _ _ _ => leString_trans _ _ _) (fun _ _ => leString_total _ _)
    (fun _ ha _ hb hab hba => eq_of_nodup_map hn ha hb (leString_antisymm hab hba)) h

theorem tidy_normalField (field : FieldKey) (alwaysNull : Bool) {form : Json} (h : form.Tidy) :
    (normalField field alwaysNull form).Tidy := by
  unfold normalField
  refine .obj ?_ fun m hm => ?_
  · cases alwaysNull || field.nullable <;> simp
  · rcases List.mem_append.mp hm with hm | hm
    · simp only [List.mem_cons, List.not_mem_nil, or_false] at hm
      rcases hm with rfl | rfl
      · exact .str _
      · exact h
    · split at hm
      · rw [List.mem_singleton.mp hm]
        exact .null
      · cases hm

theorem Outline.Alike.normal_optional {o o' : Outline} (h : o.Alike o') {altNamesKey : String}
    {names : List (Position × String)} {registry registry' : Registry} {fuel fuel' : Nat}
    {enclosing : String} {stack : List String} (nullable : Bool)
    (ih : ∃ form : Json, form.Tidy ∧
      normalNode registry fuel enclosing stack (o.schema altNamesKey names) = .ok form ∧
      normalNode registry' fuel' enclosing stack (o'.schema altNamesKey names) = .ok form) :
    ∃ form : Json, form.Tidy ∧
      normalNode registry fuel enclosing stack
        (Outline.optional nullable (o.schema altNamesKey names)) = .ok form ∧
      normalNode registry' fuel' enclosing stack
        (Outline.optional nullable (o'.schema altNamesKey names)) = .ok form := by
  obtain ⟨form, ht, hf, hf'⟩ := ih
  rw [optional_schema h.knownScalar.1, optional_schema h.knownScalar.2, ← h.isNull_eq]
  split
  · refine ⟨_, ?_, normal_nullable _ _ _ _ hf, normal_nullable _ _ _ _ hf'⟩
    refine .arr fun j hj => ?_
    rw [(List.mergeSort_perm _ _).mem_iff] at hj
    simp only [List.mem_cons, List.not_mem_nil, or_false] at hj
    rcases hj with rfl | rfl
    · exact .str _
    · exact ht
  · exact ⟨form, ht, hf, hf'⟩

/-- The schemas of outlines that are alike have one normal form, whatever their registries. -/
theorem Outline.Alike.normal {o o' : Outline} (h : o.Alike o') (altNamesKey : String)
    (names : List (Position × String)) (registry registry' : Registry) (fuel fuel' : Nat)
    (enclosing : String) (stack : List String) :
    ∃ form : Json, form.Tidy ∧
      normalNode registry fuel enclosing stack (o.schema altNamesKey names) = .ok form ∧
      normalNode registry' fuel' enclosing stack (o'.schema altNamesKey names) = .ok form := by
  induction h generalizing enclosing stack with
  | null => exact ⟨_, .str _, normal_null _ _ _ _, normal_null _ _ _ _⟩
  | scalar h => exact ⟨_, tidy_scalar h, normal_scalar _ _ _ _ h, normal_scalar _ _ _ _ h⟩
  | @array nullable items items' h ih =>
    obtain ⟨form, ht, hf, hf'⟩ := h.normal_optional nullable (ih enclosing stack)
    refine ⟨_, ?_, normal_array _ _ _ _ hf, normal_array _ _ _ _ hf'⟩
    refine .obj (by simp) fun m hm => ?_
    simp only [List.mem_cons, List.not_mem_nil, or_false] at hm
    rcases hm with rfl | rfl
    · exact .str _
    · exact ht
  | @record site keys keys' field types types' hp hn h ih =>
    rw [schema_record, schema_record, schemaFields_map, schemaFields_map, normal_record,
      normal_record]
    simp only
    generalize Schema.fullName (.obj (recordMembers names site [])) enclosing = name
    by_cases hs : stack.contains name = true
    · exact ⟨.str name, .str _, by rw [if_pos hs], by rw [if_pos hs]⟩
    rw [if_neg hs, if_neg hs]
    have hforms : ∀ k, ∃ form : Json, k ∈ keys → form.Tidy ∧
        normalNode registry fuel (Schema.splitName name).1 (name :: stack)
          (declaredType (field k) (types k).isNull ((types k).schema altNamesKey names)) =
            .ok form ∧
        normalNode registry' fuel' (Schema.splitName name).1 (name :: stack)
          (declaredType (field k) (types' k).isNull ((types' k).schema altNamesKey names)) =
            .ok form := by
      intro k
      by_cases hk : k ∈ keys
      · rw [declaredType, declaredType, ← (h k hk).isNull_eq]
        split
        · obtain ⟨form, hf⟩ := ih k hk (Schema.splitName name).1 (name :: stack)
          exact ⟨form, fun _ => hf⟩
        · obtain ⟨form, hf⟩ := (h k hk).normal_optional (field k).nullable
            (ih k hk (Schema.splitName name).1 (name :: stack))
          exact ⟨form, fun _ => hf⟩
      · exact ⟨.null, fun hk' => absurd hk' hk⟩
    obtain ⟨form, hform⟩ := Classical.axiomOfChoice hforms
    rw [normal_fields _ _ _ _ altNamesKey fun k hk => (hform k hk).2.1,
      normal_fields _ _ _ _ altNamesKey fun k hk =>
        (hform k (hp.mem_iff.mpr hk)).2.2]
    have hfields : keys'.map (fun k => normalField (field k) (types' k).isNull (form k)) =
        keys'.map fun k => normalField (field k) (types k).isNull (form k) :=
      List.map_congr_left fun k hk => by rw [(h k (hp.mem_iff.mpr hk)).isNull_eq]
    have hnames : ((keys.map fun k => normalField (field k) (types k).isNull (form k)).map
        Schema.nameOf).Nodup := by
      rw [List.map_map]
      exact hn
    simp only [hfields, ← fieldLe_sorted (hp.map _) hnames]
    refine ⟨_, ?_, rfl, rfl⟩
    refine .obj (by simp) fun m hm => ?_
    simp only [List.mem_cons, List.not_mem_nil, or_false] at hm
    rcases hm with rfl | rfl | rfl
    · exact .str _
    · exact .str _
    · refine .arr fun j hj => ?_
      rw [(List.mergeSort_perm _ _).mem_iff] at hj
      obtain ⟨k, hk, rfl⟩ := List.mem_map.mp hj
      exact tidy_normalField _ _ (hform k hk).1

theorem Outline.Alike.finished {o o' : Outline} (h : o.Alike o')
    (hd : (o.sites.map (·.position)).Nodup) (altNamesKey : String) :
    Reordered (o.finished altNamesKey) (o'.finished altNamesKey) ∧
      Schema.equivalent (o.finished altNamesKey) (o'.finished altNamesKey) = .ok true := by
  have hnames : recordNames o'.sites = recordNames o.sites := (recordNames_perm hd h.sites).symm
  unfold Outline.finished
  rw [hnames]
  refine ⟨h.reordered altNamesKey _, ?_⟩
  obtain ⟨form, ht, hf, hf'⟩ := h.normal altNamesKey (recordNames o.sites)
    (Registry.ofSchema (o.schema altNamesKey (recordNames o.sites)))
    (Registry.ofSchema (o'.schema altNamesKey (recordNames o.sites)))
    (Registry.depthBound (o.schema altNamesKey (recordNames o.sites)))
    (Registry.depthBound (o'.schema altNamesKey (recordNames o.sites))) "" []
  rw [Schema.equivalent, Schema.normal, hf, Schema.normal, hf']
  exact congrArg Except.ok (Json.same_self ht)

theorem countable_iff_of_shuffled {v w : Value} (h : Shuffled v w) : Countable v ↔ Countable w := by
  unfold Countable Value.IsStruct
  rw [h.kind?, h.supported]

theorem all_countable_iff {vs ws : List Value} (h : List.Forall₂ Shuffled vs ws) :
    (∀ v ∈ vs, Countable v) ↔ ∀ w ∈ ws, Countable w := by
  induction h with
  | nil => exact Iff.rfl
  | cons hvw _ ih =>
    simp only [List.mem_cons, forall_eq_or_imp, countable_iff_of_shuffled hvw, ih]

end Inference

open Inference

/-- Inference from documents in another order, whose structs and lists are in another order at any
depth, fails on both or gives the same schema but for the order of the fields of a record. -/
theorem inferSchema_order_independent {options : Options} (hrows : options.rowsToScan = 0)
    {docs mid docs' : List Value} (hp : docs.Perm mid) (hs : List.Forall₂ Shuffled mid docs') :
    (∃ failure failure', inferSchema options docs = .error failure ∧
        inferSchema options docs' = .error failure') ∨
      ∃ schema schema', inferSchema options docs = .ok schema ∧
        inferSchema options docs' = .ok schema' ∧ Reordered schema schema' ∧
        Schema.equivalent schema schema' = .ok true := by
  have hcount : (∀ d ∈ docs, Countable d) ↔ ∀ d ∈ docs', Countable d := by
    rw [← all_countable_iff hs]
    simp only [hp.mem_iff]
  have hempty : docs = [] ↔ docs' = [] := by
    rw [← List.length_eq_zero_iff, hp.length_eq, hs.length_eq, List.length_eq_zero_iff]
  have hl : LookAlike docs docs' := (lookAlike_of_perm hp).trans (lookAlike_of_forall₂ hs)
  by_cases hok : docs ≠ [] ∧ ∀ d ∈ docs, Countable d
  · obtain ⟨hne, hd⟩ := hok
    have hd' := hcount.mp hd
    refine .inr ⟨_, _, (inferSchema_ok_iff hrows).mpr ⟨hne, hd, rfl⟩,
      (inferSchema_ok_iff hrows).mpr ⟨fun e => hne (hempty.mpr e), hd', rfl⟩, ?_⟩
    have ho := outlined_outlineOf (fun d h => (hd d h).2) options.typeName options.namespaceName
    have ho' := outlined_outlineOf (fun d h => (hd' d h).2) options.typeName options.namespaceName
    exact (alike_of_outlined ho hl ho').finished (sites_of_outlined ho).1 _
  · refine .inl ?_
    have hok' : ¬ (docs' ≠ [] ∧ ∀ d ∈ docs', Countable d) := by
      rw [← hcount, Ne, ← hempty]
      exact hok
    cases h : inferSchema options docs with
    | ok schema =>
      obtain ⟨hne, hd, _⟩ := (inferSchema_ok_iff hrows).mp h
      exact absurd ⟨hne, hd⟩ hok
    | error failure =>
      cases h' : inferSchema options docs' with
      | ok schema =>
        obtain ⟨hne, hd, _⟩ := (inferSchema_ok_iff hrows).mp h'
        exact absurd ⟨hne, hd⟩ hok'
      | error failure' => exact ⟨failure, failure', rfl, rfl⟩

/-- Two documents the other way round, with the keys of one and the items of the other swapped. -/
theorem inferSchema_other_way_round :
    let a := Value.struct [(.text "a b", .int 1), (.text "a_b", .null)]
    let b := Value.struct [(.text "c", .list [.struct [(.text "x", .bool true)], .null])]
    let a' := Value.struct [(.text "a_b", .null), (.text "a b", .int 1)]
    let b' := Value.struct [(.text "c", .list [.null, .struct [(.text "x", .bool true)]])]
    let options := Options.standard "Document" "" (List.replicate 16 0)
    ∃ schema schema', inferSchema options [a, b] = .ok schema ∧
      inferSchema options [b', a'] = .ok schema' ∧ Reordered schema schema' ∧
      Schema.equivalent schema schema' = .ok true := by
  intro a b a' b' options
  have hinfer : ∃ schema, inferSchema options [a, b] = .ok schema :=
    ⟨_, (inferSchema_ok_iff rfl).mpr ⟨List.cons_ne_nil _ _, by decide, rfl⟩⟩
  refine (inferSchema_order_independent rfl (List.Perm.swap _ _ _)
    (.cons (.entry (l := []) (r := []) (.items (List.Perm.swap _ _ _)))
      (.cons (.entries (List.Perm.swap _ _ _)) .nil))).resolve_left ?_
  rintro ⟨failure, -, hfailure, -⟩
  obtain ⟨schema, hschema⟩ := hinfer
  cases hschema.symm.trans hfailure

end AvroDocument
