import AvroDocument.Proofs.Acceptance
import AvroDocument.Proofs.Defaults
import AvroDocument.Proofs.Preparation

/-!
# AvroDocument.Proofs.WellFormed

Inferred schemas are well formed, whatever the keys of documents look like.

* `Schema.recordsIn`: the records inside a schema with their full names.
* `Schema.WellFormed`: valid names, full names and field names of their own, null in front of what may
  be null.
* `names_recordsIn`, `node_recordsIn`: the records in the schema of an outline.
* `inferSchema_wellFormed`: so is every inferred schema, and it is accepted as a schema.
-/

namespace AvroDocument
namespace Schema

/-- Valid names with dots between them. -/
def ValidNamespace (s : String) : Prop :=
  ∃ parts : List String, parts ≠ [] ∧ (∀ part ∈ parts, ValidName part) ∧
    s = String.intercalate "." parts

mutual

/-- The records inside a schema that stands in a namespace, outer ones first, each with its full
name. -/
def recordsIn (enclosing : String) (schema : Json) : List (String × Json) :=
  match schema with
  | .arr members => memberRecords enclosing members
  | .obj ms =>
    let kind := typeName (.obj ms)
    if kind = "record" then
      let name := fullName (.obj ms) enclosing
      let inner :=
        match _h : lookup? "fields" ms with
        | some (.arr fields) => fieldRecords (splitName name).1 fields
        | _ => []
      (name, .obj ms) :: inner
    else if kind = "array" then
      match _h : lookup? "items" ms with
      | some items => recordsIn enclosing items
      | none => []
    else if kind = "map" then
      match _h : lookup? "values" ms with
      | some values => recordsIn enclosing values
      | none => []
    else []
  | _ => []
termination_by sizeOf schema
decreasing_by
  all_goals first
    | exact Json.sizeOf_lt_arr _
    | exact Json.sizeOf_lt_items _h
    | exact Json.sizeOf_lt_obj _h

def memberRecords (enclosing : String) (members : List Json) : List (String × Json) :=
  match members with
  | [] => []
  | member :: rest => recordsIn enclosing member ++ memberRecords enclosing rest
termination_by sizeOf members

def fieldRecords (enclosing : String) (fields : List Json) : List (String × Json) :=
  match fields with
  | [] => []
  | field :: rest =>
    let inner :=
      match _h : field.get? "type" with
      | some type => recordsIn enclosing type
      | none => []
    inner ++ fieldRecords enclosing rest
termination_by sizeOf fields
decreasing_by
  · have := Json.sizeOf_get? _h
    simp only [List.cons.sizeOf_spec]
    omega
  · simp only [List.cons.sizeOf_spec]
    omega

end

/-- If a field may be null, null comes first in its type or is its type, and is its default. -/
def NullFirst (field : Json) : Prop :=
  isNullable (typeOf field) = true →
    (typeOf field = .str "null" ∨ ∃ rest, typeOf field = .arr (.str "null" :: rest)) ∧
      field.get? "default" = some .null

/-- A record with a valid name in a valid namespace, whose fields have valid names of their own. -/
structure RecordInOrder (record : Json) : Prop where
  name : ValidName (textOf record "name")
  inNamespace : record.has "namespace" = true → ValidNamespace (textOf record "namespace")
  distinct : ((fieldsOf record).map nameOf).Nodup
  fieldNames : ∀ field ∈ fieldsOf record, ValidName (nameOf field)
  nullFirst : ∀ field ∈ fieldsOf record, NullFirst field

/-- A schema whose records are in order and have full names of their own. -/
structure WellFormed (schema : Json) : Prop where
  records : ∀ r ∈ recordsIn "" schema, RecordInOrder r.2
  distinct : ((recordsIn "" schema).map (·.1)).Nodup

end Schema

namespace Inference

open Schema (ValidName ValidNamespace recordsIn memberRecords fieldRecords)

variable {altNamesKey : String} {names : List (Position × String)}

/-! ## Namespaces -/

/-- A namespace may be made of several at once. -/
theorem intercalate_nested {sep : String} {front : List String} (hf : front ≠ [])
    (back : List String) :
    String.intercalate sep (String.intercalate sep front :: back) =
      String.intercalate sep (front ++ back) := by
  cases back with
  | nil => rw [List.append_nil, String.intercalate_singleton]
  | cons b back =>
    rw [String.intercalate_append_of_ne_nil hf (by simp), String.intercalate_cons_cons]

/-- Valid names with dots between them are empty, when there are none, or a namespace. -/
theorem intercalate_valid {parts : List String} (h : ∀ part ∈ parts, ValidName part) :
    String.intercalate "." parts = "" ∨ ValidNamespace (String.intercalate "." parts) := by
  by_cases hne : parts = []
  · subst hne
    exact .inl String.intercalate_nil
  · exact .inr ⟨parts, hne, h, rfl⟩

theorem outerNamespace_valid (namespaceName : String) :
    outerNamespace namespaceName = "" ∨ ValidNamespace (outerNamespace namespaceName) := by
  unfold outerNamespace
  split
  · exact .inl rfl
  · refine intercalate_valid fun part hpart => ?_
    obtain ⟨s, _, rfl⟩ := List.mem_map.mp hpart
    exact Schema.avroName_valid s

/-- The namespace of a record is empty, or made of the outer one and the valid names in front of it. -/
theorem siteNamespace_valid {outer : String} (ho : outer = "" ∨ ValidNamespace outer)
    {path : List String} (hpath : ∀ name ∈ path, ValidName name) :
    Outline.siteNamespace outer path = "" ∨ ValidNamespace (Outline.siteNamespace outer path) := by
  have hfront : ∀ name ∈ path.dropLast, ValidName name := fun name hn =>
    hpath name (List.dropLast_subset _ hn)
  unfold Outline.siteNamespace
  split
  · exact intercalate_valid hfront
  · rename_i houter
    obtain ⟨parts, hne, hvalid, rfl⟩ := ho.resolve_left houter
    rw [List.singleton_append, intercalate_nested hne]
    refine intercalate_valid fun name hn => ?_
    exact (List.mem_append.mp hn).elim (hvalid name) (hfront name)

theorem valid_path_items {path : List String} (hne : path ≠ [])
    (h : ∀ name ∈ path, ValidName name) :
    Outline.itemPath path ≠ [] ∧ ∀ name ∈ Outline.itemPath path, ValidName name := by
  rw [Outline.itemPath]
  refine ⟨by simp, fun name hn => ?_⟩
  rcases List.mem_append.mp hn with hn | hn
  · exact h name (List.dropLast_subset _ hn)
  · rw [List.mem_singleton.mp hn, List.getLast?_eq_some_getLast hne, Option.getD_some]
    exact (h _ (List.getLast_mem hne)).append (by decide)

/-- The records of an outline stand in valid namespaces. -/
theorem namespaces_of_outlined {outer : String} {p : Position} {path : List String}
    {vs : List Value} {o : Outline} (h : Outlined outer p path vs o)
    (ho : outer = "" ∨ ValidNamespace outer) (hne : path ≠ [])
    (hpath : ∀ name ∈ path, ValidName name) :
    ∀ s ∈ o.sites, s.namespaceName = "" ∨ ValidNamespace s.namespaceName := by
  induction h with
  | null _ | mixed _ | scalar _ | emptyArray _ => exact fun s hs => absurd hs List.not_mem_nil
  | array _ _ ih =>
    obtain ⟨hne', hpath'⟩ := valid_path_items hne hpath
    exact ih hne' hpath'
  | @record p path vs types _ _ ih =>
    intro s hs
    rw [Outline.sites, fieldSites_map] at hs
    rcases List.mem_cons.mp hs with rfl | hs
    · exact siteNamespace_valid ho hpath
    · obtain ⟨key, hkey, hs⟩ := List.mem_flatMap.mp hs
      refine ih key hkey (by simp) (fun name hn => ?_) s hs
      rcases List.mem_append.mp hn with hn | hn
      · exact hpath name hn
      · rw [List.mem_singleton.mp hn]
        exact valid_nameOfKey hkey

/-! ## The records in a schema -/

theorem recordsIn_str (enclosing s : String) : recordsIn enclosing (.str s) = [] := by
  rw [recordsIn]
  · exact fun _ => Json.noConfusion
  · exact fun _ => Json.noConfusion

theorem recordsIn_scalar {type : Json} (h : type ∈ scalarTypes) (enclosing : String) :
    recordsIn enclosing type = [] := by
  simp only [scalarTypes_eq, List.mem_cons, List.not_mem_nil, or_false] at h
  rcases h with rfl | rfl | rfl | rfl | rfl | rfl | rfl | rfl | rfl
  all_goals first
    | exact recordsIn_str _ _
    | rw [recordsIn]; rfl

/-- Null added to a type adds no records. -/
theorem recordsIn_optional {o : Outline} (hv : o.Valid) (nullable : Bool) (enclosing : String) :
    recordsIn enclosing (Outline.optional nullable (o.schema altNamesKey names)) =
      recordsIn enclosing (o.schema altNamesKey names) := by
  rw [Outline.optional_schema hv.knownScalar]
  split
  · rw [recordsIn, memberRecords, memberRecords, memberRecords, recordsIn_str, List.nil_append,
      List.append_nil]
  · rfl

theorem recordsIn_array (enclosing : String) (items : Json) :
    recordsIn enclosing (.obj [("type", .str "array"), ("items", items)]) =
      recordsIn enclosing items := by
  rw [recordsIn]
  rfl

theorem fieldRecords_map {fields : List (FieldKey × Outline)}
    (hv : ∀ f ∈ fields, Outline.Valid f.2) (enclosing : String) :
    fieldRecords enclosing (fields.map (fieldSchema altNamesKey names)) =
      fields.flatMap fun f => recordsIn enclosing (f.2.schema altNamesKey names) := by
  induction fields with
  | nil => rw [List.map_nil, fieldRecords, List.flatMap_nil]
  | cons f fields ih =>
    have htype : (fieldSchema altNamesKey names f).get? "type" =
        some (Outline.optional f.1.nullable (f.2.schema altNamesKey names)) :=
      congrArg some (declaredType_eq (hv f List.mem_cons_self) f.1 altNamesKey)
    rw [List.map_cons, fieldRecords, htype, List.flatMap_cons,
      ih fun g hg => hv g (List.mem_cons_of_mem _ hg)]
    simp only [recordsIn_optional (hv f List.mem_cons_self)]

theorem recordsIn_record {site : RecordSite} {fields : List (FieldKey × Outline)}
    {enclosing : String} (hname : ValidName (Outline.nameAt names site))
    (hplace : site.namespaceName = "" → enclosing = "") (hv : ∀ f ∈ fields, Outline.Valid f.2) :
    recordsIn enclosing ((Outline.record site fields).schema altNamesKey names) =
      (recordName names site, (Outline.record site fields).schema altNamesKey names) ::
        fields.flatMap fun f => recordsIn site.namespaceName (f.2.schema altNamesKey names) := by
  rw [schema_fields, recordsIn]
  simp only [typeName_record, if_true, fullName_record _ hname hplace]
  rw [lookup_fields]
  simp only [splitName_record hname, fieldRecords_map hv]

/-- The full names of the records in a schema are those of its outline. -/
theorem names_recordsIn {o : Outline} (hv : o.Valid) {enclosing : String}
    (hp : o.Placed names enclosing) :
    (recordsIn enclosing (o.schema altNamesKey names)).map (·.1) =
      o.sites.map (recordName names) := by
  induction hv generalizing enclosing with
  | null => rw [Outline.schema, recordsIn_str]; rfl
  | scalar h => rw [Outline.schema, recordsIn_scalar h]; rfl
  | array hv ih =>
    cases hp with
    | array hp => rw [Outline.schema, recordsIn_array, recordsIn_optional hv, ih hp, Outline.sites]
  | @record site fields _ _ _ hv ih =>
    cases hp with
    | record hname hplace hp =>
      rw [recordsIn_record hname hplace hv, List.map_cons, Outline.sites, fieldSites_eq,
        List.map_cons, List.map_flatMap, List.map_flatMap]
      exact congrArg _ (List.flatMap_congr fun f hf => ih f hf (hp f hf))

/-- The records in a schema are the schemas of the records of its outline. -/
theorem node_recordsIn {o : Outline} (hv : o.Valid) {enclosing : String}
    (hp : o.Placed names enclosing) {r : String × Json}
    (hr : r ∈ recordsIn enclosing (o.schema altNamesKey names)) :
    ∃ site ∈ o.sites, ∃ fields, (Outline.record site fields).Valid ∧
      r.2 = (Outline.record site fields).schema altNamesKey names := by
  induction hv generalizing enclosing with
  | null => rw [Outline.schema, recordsIn_str] at hr; cases hr
  | scalar h => rw [Outline.schema, recordsIn_scalar h] at hr; cases hr
  | array hv ih =>
    cases hp with
    | array hp =>
      rw [Outline.schema, recordsIn_array, recordsIn_optional hv] at hr
      exact ih hp hr
  | @record site fields hkeys hnames hvalid hv ih =>
    cases hp with
    | record hname hplace hp =>
      rw [recordsIn_record hname hplace hv] at hr
      rw [Outline.sites, fieldSites_eq]
      rcases List.mem_cons.mp hr with rfl | hr
      · exact ⟨site, List.mem_cons_self, fields, .record hkeys hnames hvalid hv, rfl⟩
      · obtain ⟨f, hf, hr⟩ := List.mem_flatMap.mp hr
        obtain ⟨inner, hinner, hrest⟩ := ih f hf (hp f hf) hr
        exact ⟨inner, List.mem_cons_of_mem _ (List.mem_flatMap.mpr ⟨f, hf, hinner⟩), hrest⟩

/-! ## Fields -/

/-- A field whose type admits null has null in front and as its default. -/
theorem nullFirst_field {f : FieldKey × Outline} (hv : f.2.Valid) :
    Schema.NullFirst (fieldSchema altNamesKey names f) := by
  obtain ⟨field, o⟩ := f
  intro hnullable
  rw [typeOf_field hv, Outline.optional_schema hv.knownScalar] at hnullable ⊢
  rw [fieldSchema, get_default]
  cases hnull : o.isNull with
  | true =>
    have htype : o.schema altNamesKey names = .str "null" := by
      cases hv with
      | null => rfl
      | _ => cases hnull
    simp [htype]
  | false =>
    rw [hnull, Bool.not_false, Bool.and_true] at hnullable
    cases hf : field.nullable with
    | true => exact ⟨.inr ⟨_, rfl⟩, rfl⟩
    | false =>
      rw [hf, if_neg (by decide), isNullable_schema hv, hnull] at hnullable
      cases hnullable

/-- A record of a valid outline is in order when its name and its namespace are valid. -/
theorem recordInOrder_schema {site : RecordSite} {fields : List (FieldKey × Outline)}
    (hv : (Outline.record site fields).Valid) (hname : ValidName (Outline.nameAt names site))
    (hspace : site.namespaceName = "" ∨ ValidNamespace site.namespaceName) :
    Schema.RecordInOrder ((Outline.record site fields).schema altNamesKey names) := by
  cases hv with
  | record hkeys hnames hvalid hfields =>
    rw [schema_fields]
    refine ⟨hname, fun hhas => ?_, ?_, fun field hf => ?_, fun field hf => ?_⟩
    · rw [has_namespace, decide_eq_true_eq] at hhas
      rw [textOf_namespace]
      exact hspace.resolve_left hhas
    · rw [fieldsOf_record, List.map_map]
      exact hnames
    · rw [fieldsOf_record] at hf
      obtain ⟨f, hmem, rfl⟩ := List.mem_map.mp hf
      exact hvalid f hmem
    · rw [fieldsOf_record] at hf
      obtain ⟨f, hmem, rfl⟩ := List.mem_map.mp hf
      exact nullFirst_field (hfields f hmem)

/-- The schema of documents is well formed. -/
theorem wellFormed_finished {docs : List Value} (hd : ∀ d ∈ docs, Supported d)
    (typeName namespaceName altNamesKey : String) :
    Schema.WellFormed ((outlineOf typeName namespaceName docs).finished altNamesKey) := by
  have ho := outlined_outlineOf hd typeName namespaceName
  have hv := valid_of_outlined ho
  have hp := placed_outlineOf hd typeName namespaceName
  have hspaces := namespaces_of_outlined ho (outerNamespace_valid namespaceName) (by simp)
    fun name hn => by
      rw [List.mem_singleton.mp hn]
      exact Schema.avroName_valid typeName
  refine ⟨fun r hr => ?_, ?_⟩
  · obtain ⟨site, hsite, fields, hrecord, hnode⟩ := node_recordsIn hv hp hr
    rw [hnode]
    exact recordInOrder_schema hrecord (hp.valid_names site hsite) (hspaces site hsite)
  · rw [Outline.finished, names_recordsIn hv hp]
    exact hp.nodup_recordNames (sites_of_outlined ho).1

end Inference

open Inference

/-- Whenever inference succeeds, its schema is accepted, by the check of types and as a layout, and
well formed: names of records, fields and namespaces are valid, full names and the names of the fields
of a record are distinct, and null comes first where it may stand. -/
theorem inferSchema_wellFormed {options : Options} {docs : List Value} {schema : Json}
    (h : inferSchema options docs = .ok schema) :
    Schema.check schema = .ok (Schema.Registry.ofSchema schema) ∧
      (∃ layout, Layout.ofSchema schema = .ok layout) ∧ Schema.WellFormed schema := by
  rw [inferSchema_scanned] at h
  obtain ⟨_, hcount, rfl⟩ := (inferSchema_ok_iff rfl).mp h
  have hd : ∀ d ∈ scanned options.rowsToScan docs, Supported d := fun d h => (hcount d h).2
  exact ⟨check_finished hd _ _ _, ⟨_, layout_finished hd _ _ _⟩, wellFormed_finished hd _ _ _⟩

/-- Keys that are empty, start with a digit, differ only in what is no part of a name, or look like
names made for them; records in a list beside one under the key that their name is made of. -/
theorem inferSchema_wellFormed_clashes :
    let record := Value.struct [(.text "", .null), (.text "1", .bool true), (.text "a b", .int 1),
      (.text "a.b", .text "x"), (.text "a_b", .null), (.text "a_b_2", .float (.zero false))]
    let docs := [Value.struct [(.text "tags", .list [record, .null]), (.text "tags_items", record)],
      .struct [(.text "tags", .null), (.text "", .list [.list []])]]
    let options := Options.standard "9 lives" "x..y-z" (List.replicate 16 0)
    ∃ schema, inferSchema options docs = .ok schema ∧
      Schema.check schema = .ok (Schema.Registry.ofSchema schema) ∧
      (∃ layout, Layout.ofSchema schema = .ok layout) ∧ Schema.WellFormed schema := by
  intro record docs options
  obtain ⟨schema, hinfer⟩ : ∃ schema, inferSchema options docs = .ok schema :=
    ⟨_, (inferSchema_ok_iff rfl).mpr ⟨List.cons_ne_nil _ _, by decide, rfl⟩⟩
  exact ⟨schema, hinfer, inferSchema_wellFormed hinfer⟩

end AvroDocument
