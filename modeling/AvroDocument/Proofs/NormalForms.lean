import AvroDocument.Proofs.Algebra
import AvroDocument.Proofs.Revision
import AvroDocument.Schema.Normal

/-!
# AvroDocument.Proofs.NormalForms

Normal forms, by the kinds of nodes.

* `Schema.plainForm`, `Schema.fieldForm`, `Schema.recordForm`: the parts of a normal form.
* `normalNode_annotated`, `normalNode_array`, `normalNode_record`, `normalNode_union`: what the walk
  over a schema makes of a node, given what it makes of the types inside.
* `Schema.Forms`: nodes without references and their normal forms, whatever is declared elsewhere.
* `exists_normal`: every accepted schema without references has one.
-/

namespace AvroDocument
namespace Schema

/-! ## The parts of a normal form -/

/-- The normal form of a primitive node. -/
def plainForm : Json → Json
  | .obj ms => withoutDoc ms
  | node => node

/-- The normal form of a field, given that of its type. -/
def fieldForm (field type : Json) : Json :=
  .obj ([("name", field.getD "name" .null), ("type", type)] ++
    match field.get? "default" with
    | some d => [("default", d)]
    | none => [])

def arrayForm (items : Json) : Json := .obj [("type", .str "array"), ("items", items)]

def mapForm (values : Json) : Json := .obj [("type", .str "map"), ("values", values)]

/-- The normal form of a record, given its full name and the normal forms of its fields. -/
def recordForm (name : String) (fields : List Json) : Json :=
  .obj [("type", .str "record"), ("name", .str name), ("fields", .arr (fields.mergeSort fieldLe))]

def unionForm (members : List Json) : Json := .arr (members.mergeSort memberLe)

theorem lookup_filter {key other : String} (hne : key ≠ other) (ms : List (String × Json)) :
    lookup? key (ms.filter fun m => m.1 ≠ other) = lookup? key ms := by
  induction ms with
  | nil => rfl
  | cons m ms ih =>
    by_cases hm : m.1 = other
    · have hkey : ¬ m.1 = key := fun h => hne (h.symm.trans hm)
      rw [List.filter_cons_of_neg (by simpa using hm), ih, lookup?, if_neg hkey]
    · rw [List.filter_cons_of_pos (by simpa using hm), lookup?, lookup?, ih]

theorem nameOf_fieldForm {field : Json} (h : field.has "name" = true) (type : Json) :
    nameOf (fieldForm field type) = nameOf field := by
  obtain ⟨name, hname⟩ := Option.isSome_iff_exists.mp h
  simp only [nameOf, textOf, fieldForm, Json.getD, hname]
  rfl

/-! ## The walk over a schema -/

section walk

variable {registry : Registry} {fuel : Nat} {enclosing name : String} {stack : List String}
  {ms : List (String × Json)} {form : Json}

theorem normalNode_primitive (h : primitiveNames.contains name = true) :
    normalNode registry fuel enclosing stack (.str name) = .ok (.str name) := by
  rw [normalNode, if_pos h]

theorem normalNode_annotated (h : primitiveNames.contains (typeName (.obj ms)) = true) :
    normalNode registry fuel enclosing stack (.obj ms) = .ok (withoutDoc ms) := by
  have hp := isPrimitive_iff.mp h
  obtain ⟨p, hp⟩ := Option.isSome_iff_exists.mp hp
  have hrecord : typeName (.obj ms) ≠ "record" := not_kind hp rfl
  have harray : typeName (.obj ms) ≠ "array" := not_kind hp rfl
  have hmap : typeName (.obj ms) ≠ "map" := not_kind hp rfl
  rw [normalNode]
  simp only [if_neg hrecord, if_neg harray, if_neg hmap]

theorem normalNode_array (hkind : typeName (.obj ms) = "array")
    (h : normalNode registry fuel enclosing stack (itemsOf (.obj ms)) = .ok form) :
    normalNode registry fuel enclosing stack (.obj ms) = .ok (arrayForm form) := by
  rw [normalNode]
  simp only [hkind, if_neg (show ¬ "array" = "record" by decide), if_true]
  simp only [itemsOf, Json.getD, Json.get?, Json.members] at h
  split
  · rename_i e hitems
    split at hitems
    · rename_i items hlookup
      rw [hlookup, Option.getD_some, hitems] at h
      cases h
    · cases hitems
  · rename_i items hitems
    split at hitems
    · rename_i items' hlookup
      rw [hlookup, Option.getD_some, hitems] at h
      cases h
      rfl
    · rename_i hlookup
      rw [hlookup, Option.getD_none, normalNode_primitive (by decide)] at h
      cases h
      cases hitems
      rfl

/-- A record around the node is left as its full name. -/
theorem normalNode_entered (hkind : typeName (.obj ms) = "record")
    (hstack : fullName (.obj ms) enclosing ∈ stack) :
    normalNode registry fuel enclosing stack (.obj ms) =
      .ok (.str (fullName (.obj ms) enclosing)) := by
  rw [normalNode]
  simp only [hkind, if_true, List.contains_iff_mem.mpr hstack]

theorem normalNode_record {forms : List Json} (hkind : typeName (.obj ms) = "record")
    (hstack : fullName (.obj ms) enclosing ∉ stack)
    (h : normalFields registry fuel (splitName (fullName (.obj ms) enclosing)).1
      (fullName (.obj ms) enclosing :: stack) (fieldsOf (.obj ms)) = .ok forms) :
    normalNode registry fuel enclosing stack (.obj ms) =
      .ok (recordForm (fullName (.obj ms) enclosing) forms) := by
  have hnew : ¬ stack.contains (fullName (.obj ms) enclosing) = true :=
    fun hmem => hstack (List.contains_iff_mem.mp hmem)
  rw [normalNode]
  simp only [hkind, if_true, if_neg hnew]
  split
  · rename_i e hfields
    split at hfields
    · rename_i fields hlookup
      rw [fieldsOf_arr hlookup, hfields] at h
      cases h
    · cases hfields
  · rename_i fields hfields
    split at hfields
    · rename_i fields' hlookup
      rw [fieldsOf_arr hlookup, hfields] at h
      cases h
      rfl
    · rename_i hnone
      rw [fieldsOf_eq_nil hnone, normalFields] at h
      cases h
      cases hfields
      rfl

theorem normalNode_union {pairs : List (Json × Json)}
    (h : ∀ p ∈ pairs, normalNode registry fuel enclosing stack p.1 = .ok p.2) :
    normalNode registry fuel enclosing stack (.arr (pairs.map (·.1))) =
      .ok (unionForm (pairs.map (·.2))) := by
  have hmembers : normalMembers registry fuel enclosing stack (pairs.map (·.1)) =
      .ok (pairs.map (·.2)) := by
    induction pairs with
    | nil => rw [List.map_nil, normalMembers]; rfl
    | cons p pairs ih =>
      rw [List.map_cons, normalMembers, h p List.mem_cons_self,
        ih fun q hq => h q (List.mem_cons_of_mem _ hq)]
      rfl
  rw [normalNode, hmembers]
  rfl

theorem normalFields_pairs {pairs : List (Json × Json)}
    (hnamed : ∀ p ∈ pairs, p.1.has "name" = true)
    (h : ∀ p ∈ pairs, normalNode registry fuel enclosing stack (typeOf p.1) = .ok p.2) :
    normalFields registry fuel enclosing stack (pairs.map (·.1)) =
      .ok (pairs.map fun p => fieldForm p.1 p.2) := by
  induction pairs with
  | nil => rw [List.map_nil, normalFields]; rfl
  | cons p pairs ih =>
    obtain ⟨name, hname⟩ := Option.isSome_iff_exists.mp (hnamed p List.mem_cons_self)
    have hp := h p List.mem_cons_self
    rw [List.map_cons, normalFields,
      ih (fun q hq => hnamed q (List.mem_cons_of_mem _ hq)) fun q hq =>
        h q (List.mem_cons_of_mem _ hq)]
    simp only [hname]
    rw [typeOf, Json.getD] at hp
    split
    · rename_i e htype
      split at htype
      · rename_i type hlookup
        rw [hlookup, Option.getD_some, htype] at hp
        cases hp
      · cases htype
    · rename_i type htype
      have htype : type = p.2 := by
        split at htype
        · rename_i type' hlookup
          rw [hlookup, Option.getD_some, htype] at hp
          exact Except.ok.inj hp
        · rename_i hlookup
          rw [hlookup, Option.getD_none, normalNode_primitive (by decide), htype] at hp
          exact Except.ok.inj hp
      rw [htype, List.map_cons, fieldForm, Json.getD, hname]
      rfl

/-- A record that is not around itself, given the normal forms of the types of its fields. -/
theorem normalNode_fields {pairs : List (Json × Json)} (hkind : typeName (.obj ms) = "record")
    (hname : fullName (.obj ms) enclosing = name) (hstack : name ∉ stack)
    (hfields : fieldsOf (.obj ms) = pairs.map (·.1))
    (hnamed : ∀ p ∈ pairs, p.1.has "name" = true)
    (h : ∀ p ∈ pairs, normalNode registry fuel (splitName name).1 (name :: stack) (typeOf p.1) =
      .ok p.2) :
    normalNode registry fuel enclosing stack (.obj ms) =
      .ok (recordForm name (pairs.map fun p => fieldForm p.1 p.2)) := by
  subst hname
  refine normalNode_record hkind hstack ?_
  rw [hfields]
  exact normalFields_pairs hnamed h

end walk

/-! ## Schemas without references -/

/-- A node without references, and its normal form inside a namespace. -/
inductive Forms : String → Json → Json → Prop
  | primitive {enclosing : String} {node : Json}
      (h : primitiveNames.contains (typeName node) = true) : Forms enclosing node (plainForm node)
  | union {enclosing : String} {pairs : List (Json × Json)}
      (hone : (nonNullMembers (pairs.map (·.2))).length ≤ 1)
      (h : ∀ p ∈ pairs, Forms enclosing p.1 p.2) :
      Forms enclosing (.arr (pairs.map (·.1))) (unionForm (pairs.map (·.2)))
  | array {enclosing : String} {ms : List (String × Json)} {form : Json}
      (hkind : typeName (.obj ms) = "array") (h : Forms enclosing (itemsOf (.obj ms)) form) :
      Forms enclosing (.obj ms) (arrayForm form)
  | record {enclosing : String} {ms : List (String × Json)} {pairs : List (Json × Json)}
      (hkind : typeName (.obj ms) = "record") (hfields : fieldsOf (.obj ms) = pairs.map (·.1))
      (hnamed : ∀ p ∈ pairs, p.1.has "name" = true) (hnames : (pairs.map (nameOf ·.1)).Nodup)
      (h : ∀ p ∈ pairs, Forms (splitName (fullName (.obj ms) enclosing)).1 (typeOf p.1) p.2) :
      Forms enclosing (.obj ms)
        (recordForm (fullName (.obj ms) enclosing) (pairs.map fun p => fieldForm p.1 p.2))

section forms

variable {registry : Registry} {fuel : Nat} {enclosing : String} {stack names : List String}
  {schema node : Json} {layout : Layout} {ds : List (String × Json)}

/-- Null is left as it is, so that the normal forms of members are not null less often than the
members. -/
theorem nonNullMembers_forms {pieces : List Piece} {form : Piece → Json}
    (hone : (nonNullMembers (pieces.map (·.node))).length ≤ 1)
    (h : ∀ p ∈ pieces, normalNode registry fuel enclosing stack p.node = .ok (form p)) :
    (nonNullMembers (pieces.map form)).length ≤ 1 := by
  simp only [nonNullMembers, ← List.countP_eq_length_filter, List.countP_map] at hone ⊢
  refine Nat.le_trans (List.countP_mono_left fun p hp hform => ?_) hone
  simp only [Function.comp_apply, Bool.not_eq_true'] at hform ⊢
  refine Bool.eq_false_iff.mpr fun hnull => ?_
  have hnode : p.node = .str "null" := by
    cases hnode : p.node with
    | str name =>
      rw [hnode] at hnull
      simpa [Json.isStr, Json.text?] using hnull
    | _ =>
      rw [hnode] at hnull
      cases hnull
  have hnormal := h p hp
  rw [hnode, normalNode_primitive (by decide)] at hnormal
  rw [← Except.ok.inj hnormal] at hform
  exact Bool.false_ne_true hform.symm

/-- The kinds of allowed objects. -/
theorem Allowed.kind {ms : List (String × Json)} (h : Allowed registry enclosing (.obj ms)) :
    primitiveNames.contains (typeName (.obj ms)) = true ∨ typeName (.obj ms) = "array" ∨
      typeName (.obj ms) = "record" := by
  cases h with
  | annotated h => exact .inl h
  | array hkind => exact .inr (.inl hkind)
  | record hkind => exact .inr (.inr hkind)

theorem Allowed.items {ms : List (String × Json)} (h : Allowed registry enclosing (.obj ms))
    (hkind : typeName (.obj ms) = "array") : Allowed registry enclosing (itemsOf (.obj ms)) := by
  cases h with
  | annotated h => exact absurd (hkind ▸ h) (by decide)
  | array _ h => exact h
  | record hrecord => exact absurd (hkind.symm.trans hrecord) (by decide)

theorem Allowed.fields {ms : List (String × Json)} (h : Allowed registry enclosing (.obj ms))
    (hkind : typeName (.obj ms) = "record") :
    ((fieldsOf (.obj ms)).map nameOf).Nodup ∧ ∀ f ∈ fieldsOf (.obj ms),
      f.has "name" = true ∧ Allowed registry (namespaceOf (.obj ms) enclosing) (typeOf f) := by
  cases h with
  | annotated h => exact absurd (hkind ▸ h) (by decide)
  | array harray => exact absurd (hkind.symm.trans harray) (by decide)
  | record _ hnamed hnames h => exact ⟨hnames, fun f hf => ⟨hnamed f hf, h f hf⟩⟩

/-- Without references the walk meets every declaration once, so no record is left as its name. -/
theorem Describes.exists_normal (h : Describes names enclosing node layout ds)
    (hfree : ReferenceFree schema) (hin : TypeIn schema node)
    (hallowed : Allowed registry enclosing node) (hd : (ds.map (·.1)).Nodup)
    (hstack : ∀ d ∈ ds, d.1 ∉ stack) :
    ∃ form, normalNode registry fuel enclosing stack node = .ok form ∧
      Forms enclosing node form := by
  have hP := hereditary_typeIn schema
  induction h generalizing stack with
  | @name enclosing name _ h =>
    have hprimitive := isPrimitive_iff.mpr (Option.isSome_iff_exists.mpr ⟨_, h⟩)
    have hforms : Forms enclosing (.str name) (plainForm (.str name)) := .primitive hprimitive
    exact ⟨_, normalNode_primitive hprimitive, hforms⟩
  | reference h =>
    have hsome := isPrimitive_iff.mp (hfree _ hin)
    rw [h] at hsome
    cases hsome
  | @annotated enclosing ms _ h =>
    have hprimitive := isPrimitive_iff.mpr (Option.isSome_iff_exists.mpr ⟨_, h⟩)
    have hforms : Forms enclosing (.obj ms) (plainForm (.obj ms)) := .primitive hprimitive
    exact ⟨_, normalNode_annotated hprimitive, hforms⟩
  | enum hkind | fixed hkind | map hkind =>
    have hkinds := hallowed.kind
    rw [hkind] at hkinds
    exact absurd hkinds (by decide)
  | @array _ ms items _ _ hkind hitems _ ih =>
    have heq := itemsOf_eq hitems
    obtain ⟨form, hform, hforms⟩ :=
      ih (hP.items hin hkind hitems) (heq ▸ hallowed.items hkind) hd hstack
    exact ⟨_, normalNode_array hkind (heq ▸ hform), .array hkind (heq ▸ hforms)⟩
  | @union _ pieces _ ih =>
    cases hallowed with
    | union hone _ hmembers =>
      rw [List.map_flatMap, List.nodup_flatMap] at hd
      obtain ⟨form, hform⟩ := exists_forall_mem fun p hp =>
        ih p hp (hP.member hin (List.mem_map_of_mem hp)) (hmembers _ (List.mem_map_of_mem hp))
          (hd.1 p hp) fun d hd => hstack d (List.mem_flatMap.mpr ⟨p, hp, hd⟩)
      have hpairs : ∀ p ∈ pieces.map fun p => (p.node, form p),
          normalNode registry fuel _ stack p.1 = .ok p.2 ∧ Forms _ p.1 p.2 :=
        List.forall_mem_map.mpr hform
      have hnonNull := nonNullMembers_forms hone fun p hp => (hform p hp).1
      have hnormal := normalNode_union fun p hp => (hpairs p hp).1
      have hforms := Forms.union (by rwa [List.map_map]) fun p hp => (hpairs p hp).2
      rw [List.map_map] at hnormal hforms
      exact ⟨_, hnormal, hforms⟩
  | @record enclosing ms pieces hkind hfields hfield _ ih =>
    rw [List.map_cons, List.map_flatMap, List.nodup_cons, List.nodup_flatMap] at hd
    obtain ⟨hnames, hallowed⟩ := hallowed.fields hkind
    rw [hfields] at hnames hallowed
    have hmem : ∀ p ∈ pieces, p.node ∈ fieldsOf (.obj ms) :=
      fun p hp => hfields ▸ List.mem_map_of_mem hp
    have hentered : ∀ p ∈ pieces, ∀ d ∈ p.declared,
        d.1 ∉ fullName (.obj ms) enclosing :: stack := by
      intro p hp d hdp
      have hinner : d ∈ pieces.flatMap (·.declared) := List.mem_flatMap.mpr ⟨p, hp, hdp⟩
      have hname := List.mem_map_of_mem (f := (·.1)) hinner
      rw [List.mem_cons, not_or]
      refine ⟨fun hsame => hd.1 ?_, hstack d (List.mem_cons_of_mem _ hinner)⟩
      rwa [hsame, List.map_flatMap] at hname
    obtain ⟨form, hform⟩ := exists_forall_mem fun p hp =>
      ih p hp (hP.field hin hkind (hmem p hp)) (hallowed _ (List.mem_map_of_mem hp)).2 (hd.2.1 p hp)
        (hentered p hp)
    have hpairs : ∀ p ∈ pieces.map fun p => (p.node, form p),
        normalNode registry fuel _ _ (typeOf p.1) = .ok p.2 ∧ Forms _ (typeOf p.1) p.2 :=
      List.forall_mem_map.mpr hform
    have hfieldsOf : fieldsOf (.obj ms) = (pieces.map fun p => (p.node, form p)).map (·.1) := by
      rw [hfields, List.map_map]
      rfl
    have hnamed : ∀ p ∈ pieces.map fun p => (p.node, form p), p.1.has "name" = true :=
      List.forall_mem_map.mpr fun p hp => (hfield p hp).named
    refine ⟨_, normalNode_fields hkind rfl (hstack _ List.mem_cons_self) hfieldsOf hnamed
        fun p hp => (hpairs p hp).1,
      .record hkind hfieldsOf hnamed ?_ fun p hp => (hpairs p hp).2⟩
    rw [List.map_map] at hnames ⊢
    exact hnames

/-- A schema that is accepted and refers to no declared type has a normal form. -/
theorem exists_normal (hl : Layout.ofSchema schema = .ok layout)
    (hc : check schema = .ok (Registry.ofSchema schema)) (hfree : ReferenceFree schema) :
    ∃ form, normal schema "" = .ok form ∧ Forms "" schema form := by
  obtain ⟨decls, ha⟩ := accepted_of_ofSchema hl
  exact ha.describes.exists_normal hfree .whole ((check_iff_allowed hl).mp hc) ha.distinct
    fun _ _ => List.not_mem_nil

end forms

end Schema
end AvroDocument
