import AvroDocument.Proofs.Outlining
import AvroDocument.Proofs.Trees

/-!
# AvroDocument.Proofs.OutlineSchema

The schemas of outlines, member by member.

* `Outline.Valid`: outlines whose scalars have known types and whose fields have names of their own.
* `Outline.optional_schema`: when the type of a position becomes a union with null.
* `fieldMembers_eq`, `recordMembers`: the members of fields and of records.
* `Outline.tidy_schema`: no object in the schema of a valid outline holds a key twice.
-/

namespace AvroDocument
namespace Inference

open Schema (ValidName)

/-! ## Valid outlines -/

theorem nodup_names (vs : List Value) : ((keysOf vs).map fun k => (fieldOf vs k).name).Nodup := by
  rw [List.nodup_iff_pairwise_ne, List.pairwise_map]
  refine List.Pairwise.imp_of_mem ?_ (List.nodup_iff_pairwise_ne.mp (nodup_keysOf vs))
  intro a b ha hb hne e
  exact hne (nameOfKey_inj (nodup_keysOf vs) ha hb e)

theorem scalar_mem_of_classify {vs : List Value} {type : Json} (h : classify vs = .scalar type) :
    type ∈ scalarTypes := by
  have hspec := classify_spec vs
  rw [h] at hspec
  exact widenedType?_mem hspec.1

theorem widest_mem : widest ∈ scalarTypes := by simp [scalarTypes]

/-- An outline whose scalars have known types and whose fields have keys and names of their own. -/
inductive Outline.Valid : Outline → Prop
  | null : Valid .null
  | scalar {type : Json} (h : type ∈ scalarTypes) : Valid (.scalar type)
  | array {nullable : Bool} {items : Outline} (h : Valid items) : Valid (.array nullable items)
  | record {site : RecordSite} {fields : List (FieldKey × Outline)}
    (hkeys : (fields.map (·.1.key)).Nodup) (hnames : (fields.map (·.1.name)).Nodup)
    (hvalid : ∀ f ∈ fields, ValidName f.1.name) (h : ∀ f ∈ fields, Valid f.2) :
    Valid (.record site fields)

theorem valid_of_outlined {outer : String} {p : Position} {path : List String} {vs : List Value}
    {o : Outline} (ho : Outlined outer p path vs o) : o.Valid := by
  induction ho with
  | null _ => exact .null
  | mixed _ => exact .scalar widest_mem
  | scalar h => exact .scalar (scalar_mem_of_classify h)
  | emptyArray _ => exact .array (.scalar widest_mem)
  | array _ _ ih => exact .array ih
  | @record p path vs types _ _ ih =>
    refine .record ?_ ?_ (fun f hf => ?_) (fun f hf => ?_)
    · rw [List.map_map]
      exact (List.map_id' (keysOf vs)).symm ▸ nodup_keysOf vs
    · rw [List.map_map]
      exact nodup_names vs
    · obtain ⟨k, hk, rfl⟩ := List.mem_map.mp hf
      exact valid_nameOfKey hk
    · obtain ⟨k, hk, rfl⟩ := List.mem_map.mp hf
      exact ih k hk

/-! ## Scalars -/

theorem scalar_not_nullable {type : Json} (h : type ∈ scalarTypes) :
    Schema.nullable type = .arr [.str "null", type] := by
  simp only [scalarTypes_eq, List.mem_cons, List.not_mem_nil, or_false] at h
  rcases h with rfl | rfl | rfl | rfl | rfl | rfl | rfl | rfl | rfl <;> rfl

/-- The scalar type of an outline, if it is one, is one that scalars have. -/
def Outline.KnownScalar (o : Outline) : Prop := ∀ type, o = .scalar type → type ∈ scalarTypes

theorem Outline.optional_schema {o : Outline} (h : o.KnownScalar) (altNamesKey : String)
    (names : List (Position × String)) (nullable : Bool) :
    optional nullable (o.schema altNamesKey names) =
      if nullable && !o.isNull then .arr [.str "null", o.schema altNamesKey names]
      else o.schema altNamesKey names := by
  cases nullable with
  | false => rfl
  | true =>
    cases o with
    | null => rfl
    | scalar type => exact scalar_not_nullable (h type rfl)
    | array nullable items => rfl
    | record site fields => rfl

theorem Outline.Valid.knownScalar {o : Outline} (h : o.Valid) : o.KnownScalar := by
  intro type e
  subst e
  cases h with
  | scalar h => exact h

/-! ## Fields and records -/

theorem schemaFields_eq (altNamesKey : String) (names : List (Position × String))
    (fields : List (FieldKey × Outline)) :
    Outline.schemaFields altNamesKey names fields =
      fields.map fun f => .obj (Outline.fieldMembers altNamesKey f.1 f.2.isNull
        (f.2.schema altNamesKey names)) := by
  induction fields with
  | nil => rfl
  | cons f fields ih =>
    obtain ⟨k, o⟩ := f
    rw [Outline.schemaFields, ih, List.map_cons]

theorem schemaFields_map (altNamesKey : String) (names : List (Position × String))
    (keys : List String) (field : String → FieldKey) (types : String → Outline) :
    Outline.schemaFields altNamesKey names (keys.map fun k => (field k, types k)) =
      keys.map fun k => .obj (Outline.fieldMembers altNamesKey (field k) (types k).isNull
        ((types k).schema altNamesKey names)) := by
  rw [schemaFields_eq, List.map_map]
  rfl

/-- What a field says beside its name and type. -/
def fieldNotes (altNamesKey : String) (field : FieldKey) (alwaysNull : Bool) :
    List (String × Json) :=
  (if field.name = field.key then [] else [("altnames", Json.obj [(altNamesKey, .str field.key)])])
    ++ if alwaysNull || field.nullable then [("default", Json.null)] else []

theorem fieldMembers_eq (altNamesKey : String) (field : FieldKey) (alwaysNull : Bool)
    (type : Json) :
    Outline.fieldMembers altNamesKey field alwaysNull type =
      ("name", .str field.name) ::
        ("type", if alwaysNull then type else Outline.optional field.nullable type) ::
          fieldNotes altNamesKey field alwaysNull := by
  rw [Outline.fieldMembers, List.append_assoc]
  rfl

/-- The type that a field declares. -/
def declaredType (field : FieldKey) (alwaysNull : Bool) (type : Json) : Json :=
  if alwaysNull then type else Outline.optional field.nullable type

section field

variable (altNamesKey : String) (field : FieldKey) (alwaysNull : Bool) (type : Json)

theorem get_name : (Json.obj (Outline.fieldMembers altNamesKey field alwaysNull type)).get? "name" =
    some (.str field.name) := rfl

theorem get_type : (Json.obj (Outline.fieldMembers altNamesKey field alwaysNull type)).get? "type" =
    some (declaredType field alwaysNull type) := rfl

theorem get_default :
    (Json.obj (Outline.fieldMembers altNamesKey field alwaysNull type)).get? "default" =
      if alwaysNull || field.nullable then some .null else none := by
  rw [fieldMembers_eq, fieldNotes, Json.get?, Json.members]
  by_cases hn : field.name = field.key <;>
    by_cases hd : (alwaysNull || field.nullable) = true <;> simp [hn, hd, lookup?]

theorem getD_aliases (default : Json) :
    (Json.obj (Outline.fieldMembers altNamesKey field alwaysNull type)).getD "aliases" default =
      default := by
  rw [fieldMembers_eq, fieldNotes, Json.getD, Json.get?, Json.members]
  by_cases hn : field.name = field.key <;>
    by_cases hd : (alwaysNull || field.nullable) = true <;> simp [hn, hd, lookup?]

end field

/-- The members of a record with the given fields. -/
def recordMembers (names : List (Position × String)) (site : RecordSite) (fields : List Json) :
    List (String × Json) :=
  [("type", .str "record"), ("name", .str (Outline.nameAt names site))] ++
    (if site.namespaceName = "" then [] else [("namespace", .str site.namespaceName)]) ++
    [("fields", .arr fields)]

theorem Outline.schema_record (altNamesKey : String) (names : List (Position × String))
    (site : RecordSite) (fields : List (FieldKey × Outline)) :
    (record site fields).schema altNamesKey names =
      .obj (recordMembers names site (schemaFields altNamesKey names fields)) := rfl

section recordMembers

variable (names : List (Position × String)) (site : RecordSite) (fields : List Json)

theorem typeName_record : Schema.typeName (.obj (recordMembers names site fields)) = "record" :=
  rfl

theorem lookup_fields : lookup? "fields" (recordMembers names site fields) = some (.arr fields) := by
  unfold recordMembers
  by_cases h : site.namespaceName = "" <;> simp [h, lookup?]

theorem lookup_type :
    lookup? "type" (recordMembers names site fields) = some (.str "record") := rfl

theorem lookup_logicalType : lookup? "logicalType" (recordMembers names site fields) = none := by
  unfold recordMembers
  by_cases h : site.namespaceName = "" <;> simp [h, lookup?]

theorem textOf_name :
    Schema.textOf (.obj (recordMembers names site fields)) "name" =
      Outline.nameAt names site := rfl

theorem has_namespace : Json.has (.obj (recordMembers names site fields)) "namespace" =
    decide (site.namespaceName ≠ "") := by
  unfold Json.has Json.get? Json.members recordMembers
  by_cases h : site.namespaceName = "" <;> simp [h, lookup?]

theorem textOf_namespace : Schema.textOf (.obj (recordMembers names site fields)) "namespace" =
    site.namespaceName := by
  unfold Schema.textOf Json.get? Json.members recordMembers
  by_cases h : site.namespaceName = "" <;> simp [h, lookup?, Json.text?]

theorem nodup_recordMembers : ((recordMembers names site fields).map (·.1)).Nodup := by
  unfold recordMembers
  by_cases h : site.namespaceName = "" <;> simp [h]

end recordMembers

/-! ## Trees -/

theorem tidy_scalar {type : Json} (h : type ∈ scalarTypes) : type.Tidy := by
  simp only [scalarTypes_eq, List.mem_cons, List.not_mem_nil, or_false] at h
  rcases h with rfl | rfl | rfl | rfl | rfl | rfl | rfl | rfl | rfl
  all_goals first
    | exact .str _
    | exact .obj (by decide) fun m hm => by
        simp only [List.mem_cons, List.not_mem_nil, or_false] at hm
        rcases hm with rfl | rfl <;> exact .str _

theorem tidy_nullable {j : Json} (h : j.Tidy) : Json.Tidy (.arr [.str "null", j]) := by
  refine .arr fun k hk => ?_
  simp only [List.mem_cons, List.not_mem_nil, or_false] at hk
  rcases hk with rfl | rfl
  · exact .str _
  · exact h

theorem tidy_optional {o : Outline} (hk : o.KnownScalar) {altNamesKey : String}
    {names : List (Position × String)} (h : (o.schema altNamesKey names).Tidy) (nullable : Bool) :
    (Outline.optional nullable (o.schema altNamesKey names)).Tidy := by
  rw [Outline.optional_schema hk]
  split
  · exact tidy_nullable h
  · exact h

theorem tidy_fieldMembers (altNamesKey : String) (field : FieldKey) (alwaysNull : Bool)
    {type : Json} (h : type.Tidy) (ho : (Outline.optional field.nullable type).Tidy) :
    Json.Tidy (.obj (Outline.fieldMembers altNamesKey field alwaysNull type)) := by
  rw [fieldMembers_eq]
  refine .obj ?_ fun m hm => ?_
  · unfold fieldNotes
    by_cases hn : field.name = field.key <;>
      by_cases hd : (alwaysNull || field.nullable) = true <;> simp [hn, hd]
  · rcases List.mem_cons.mp hm with rfl | hm
    · exact .str _
    rcases List.mem_cons.mp hm with rfl | hm
    · show Json.Tidy (if alwaysNull then type else Outline.optional field.nullable type)
      split
      · exact h
      · exact ho
    · rcases List.mem_append.mp hm with hm | hm
      · split at hm
        · cases hm
        · rw [List.mem_singleton.mp hm]
          refine .obj (by simp) fun m hm => ?_
          rw [List.mem_singleton.mp hm]
          exact .str _
      · split at hm
        · rw [List.mem_singleton.mp hm]
          exact .null
        · cases hm

/-- The schema of a valid outline is a tidy tree. -/
theorem Outline.tidy_schema {o : Outline} (h : o.Valid) (altNamesKey : String)
    (names : List (Position × String)) : (o.schema altNamesKey names).Tidy := by
  induction h with
  | null => exact .str _
  | scalar h => exact tidy_scalar h
  | @array nullable items h ih =>
    refine .obj (by simp) fun m hm => ?_
    rcases List.mem_cons.mp hm with rfl | hm
    · exact .str _
    · rw [List.mem_singleton.mp hm]
      exact tidy_optional h.knownScalar ih _
  | @record site fields _ _ _ h ih =>
    rw [schema_record]
    refine .obj (nodup_recordMembers _ _ _) fun m hm => ?_
    have hfields : (Json.arr (schemaFields altNamesKey names fields)).Tidy := by
      rw [schemaFields_eq]
      refine .arr fun j hj => ?_
      obtain ⟨f, hf, rfl⟩ := List.mem_map.mp hj
      exact tidy_fieldMembers _ _ _ (ih f hf) (tidy_optional (h f hf).knownScalar (ih f hf) _)
    rcases List.mem_append.mp hm with hm | hm
    · rcases List.mem_append.mp hm with hm | hm
      · simp only [List.mem_cons, List.not_mem_nil, or_false] at hm
        rcases hm with rfl | rfl <;> exact .str _
      · split at hm
        · cases hm
        · rw [List.mem_singleton.mp hm]
          exact .str _
    · rw [List.mem_singleton.mp hm]
      exact hfields

end Inference
end AvroDocument
