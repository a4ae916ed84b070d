import AvroDocument.Binary.Layout
import AvroDocument.Proofs.OutlineOrder
import AvroDocument.Schema.Check

/-!
# AvroDocument.Proofs.Acceptance

Inferred schemas are in order: writers and readers take them.

* `Outline.Placed`: the records of an outline inside a namespace have full names of their own.
* `check_schema`: every type is supported and no field name comes twice.
* `Outline.layout`, `layout_schema`: the layout of the schema, in which every record is declared once.
-/

namespace AvroDocument
namespace Inference

open Schema (ValidName Registry checkNode checkMembers checkFields)

variable {altNamesKey : String} {names : List (Position × String)}

/-! ## Full names -/

/-- The full name of a record. -/
def recordName (names : List (Position × String)) (site : RecordSite) : String :=
  if site.namespaceName = "" then Outline.nameAt names site else markedName names site

/-- An outline inside a namespace: its records have valid names, and one that has no namespace stands
in none. -/
inductive Outline.Placed (names : List (Position × String)) : String → Outline → Prop
  | null {enclosing : String} : Placed names enclosing .null
  | scalar {enclosing : String} {type : Json} : Placed names enclosing (.scalar type)
  | array {enclosing : String} {nullable : Bool} {items : Outline}
    (h : Placed names enclosing items) : Placed names enclosing (.array nullable items)
  | record {enclosing : String} {site : RecordSite} {fields : List (FieldKey × Outline)}
    (hname : ValidName (Outline.nameAt names site))
    (hplace : site.namespaceName = "" → enclosing = "")
    (h : ∀ f ∈ fields, Placed names site.namespaceName f.2) :
    Placed names enclosing (.record site fields)

theorem splitName_record {site : RecordSite} (h : ValidName (Outline.nameAt names site)) :
    Schema.splitName (recordName names site) =
      (site.namespaceName, Outline.nameAt names site) := by
  unfold recordName markedName
  split
  · rename_i hn
    rw [Schema.splitName_plain h.no_dot, hn]
  · exact Schema.splitName_dotted _ h.no_dot

/-- Records with one full name have one name and one namespace. -/
theorem markedName_eq {s t : RecordSite} (hs : ValidName (Outline.nameAt names s))
    (ht : ValidName (Outline.nameAt names t)) (h : recordName names s = recordName names t) :
    markedName names s = markedName names t := by
  have hsplit := congrArg Schema.splitName h
  rw [splitName_record hs, splitName_record ht, Prod.mk.injEq] at hsplit
  rw [markedName, markedName, hsplit.1, hsplit.2]

theorem fullName_record {site : RecordSite} {enclosing : String} (fields : List Json)
    (h : ValidName (Outline.nameAt names site)) (hplace : site.namespaceName = "" → enclosing = "") :
    Schema.fullName (.obj (recordMembers names site fields)) enclosing = recordName names site := by
  simp only [Schema.fullName, textOf_name, h.hasDot, has_namespace, textOf_namespace,
    Bool.false_eq_true, if_false, decide_eq_true_eq]
  by_cases hn : site.namespaceName = ""
  · simp [recordName, hn, hplace hn]
  · simp [recordName, markedName, hn]

/-! ## Outlines of values are placed -/

theorem siteNamespace_items (outer : String) (path : List String) :
    Outline.siteNamespace outer (Outline.itemPath path) = Outline.siteNamespace outer path := by
  rw [Outline.siteNamespace, Outline.itemPath, List.dropLast_append_of_ne_nil (by simp)]
  simp [Outline.siteNamespace]

/-- A record inside another one has no namespace only if the outer one has none. -/
theorem siteNamespace_outer {outer name : String} {path : List String}
    (h : Outline.siteNamespace outer (path ++ [name]) = "") :
    Outline.siteNamespace outer path = "" := by
  rw [Outline.siteNamespace, List.dropLast_concat] at h
  rw [Outline.siteNamespace]
  generalize (if outer = "" then [] else [outer]) = front at h
  rcases List.eq_nil_or_concat path with rfl | ⟨path, last, rfl⟩
  · exact h
  · rw [List.concat_eq_append, ← List.append_assoc] at h
    rw [List.concat_eq_append, List.dropLast_concat]
    by_cases hf : front ++ path = []
    · rw [hf]
      exact String.intercalate_nil
    · rw [String.intercalate_append_of_ne_nil hf (by simp)] at h
      have hlen := congrArg String.length h
      rw [String.length_append, String.length_append] at hlen
      simp at hlen

theorem valid_itemPath {path : List String} (h : ValidName (path.getLast?.getD "")) :
    ValidName ((Outline.itemPath path).getLast?.getD "") := by
  rw [Outline.itemPath, List.getLast?_append, List.getLast?_singleton]
  exact h.append (by decide)

theorem placed_of_outlined {outer : String} {p : Position} {path : List String} {vs : List Value}
    {o : Outline} (ho : Outlined outer p path vs o) (hpath : ValidName (path.getLast?.getD ""))
    {enclosing : String} (hplace : Outline.siteNamespace outer path = "" → enclosing = "")
    (hnames : ∀ s ∈ o.sites, ValidName s.name → ValidName (Outline.nameAt names s)) :
    o.Placed names enclosing := by
  induction ho generalizing enclosing with
  | null _ => exact .null
  | mixed _ | scalar _ => exact .scalar
  | emptyArray _ => exact .array .scalar
  | array _ _ ih =>
    exact .array (ih (valid_itemPath hpath) (by rwa [siteNamespace_items]) hnames)
  | @record p path vs types _ _ ih =>
    refine .record (hnames _ (by rw [Outline.sites]; exact List.mem_cons_self) hpath) hplace
      fun f hf => ?_
    obtain ⟨key, hkey, rfl⟩ := List.mem_map.mp hf
    refine ih key hkey ?_ siteNamespace_outer fun s hs => hnames s ?_
    · rw [List.getLast?_concat]
      exact valid_nameOfKey hkey
    · rw [Outline.sites, fieldSites_map]
      exact List.mem_cons_of_mem _ (List.mem_flatMap.mpr ⟨key, hkey, hs⟩)

/-! ## Supported types -/

section check

variable {registry : Registry} {fuel : Nat}

/-- A node that passes the check, wherever it stands. -/
def Passes (registry : Registry) (fuel : Nat) (schema : Json) : Prop :=
  ∀ enclosing path seen, ∃ after, checkNode registry fuel enclosing path seen schema = .ok after

theorem passes_null : Passes registry fuel (.str "null") := by
  intro enclosing path seen
  rw [checkNode]
  exact ⟨seen, rfl⟩

theorem passes_scalar {type : Json} (h : type ∈ scalarTypes) : Passes registry fuel type := by
  intro enclosing path seen
  refine ⟨seen, ?_⟩
  simp only [scalarTypes_eq, List.mem_cons, List.not_mem_nil, or_false] at h
  rcases h with rfl | rfl | rfl | rfl | rfl | rfl | rfl | rfl | rfl <;> (rw [checkNode]; rfl)

theorem passes_nullable {j : Json} (h : Passes registry fuel j) (hj : ∀ js, j ≠ .arr js) :
    Passes registry fuel (.arr [.str "null", j]) := by
  intro enclosing path seen
  obtain ⟨after, hafter⟩ := h enclosing path seen
  have hnull : checkNode registry fuel enclosing path seen (.str "null") = .ok seen := by
    rw [checkNode]
    rfl
  have hfew : (Schema.nonNullMembers [.str "null", j]).length ≤ 1 := by
    rw [Schema.nonNullMembers, List.filter_cons_of_neg (by decide)]
    exact List.length_filter_le _ _
  have hone : checkMembers registry fuel enclosing path seen [j] = .ok after := by
    cases j with
    | arr js => exact absurd rfl (hj js)
    | _ =>
      rw [checkMembers]
      · simp only [hafter]
        rw [checkMembers]
      · simp
  rw [checkNode, if_neg (by omega), checkMembers]
  · rw [hnull]
    exact ⟨after, hone⟩
  · simp

theorem passes_array {j : Json} (h : Passes registry fuel j) :
    Passes registry fuel (.obj [("type", .str "array"), ("items", j)]) := by
  intro enclosing path seen
  obtain ⟨after, hafter⟩ := h enclosing (path ++ "/items") seen
  refine ⟨after, ?_⟩
  rw [checkNode]
  simp [Schema.typeName, Schema.typeNode, lookup?, Json.text?, Schema.primitiveNames, hafter]

/-- Fields of passing types pass when their names differ from each other and from those before. -/
theorem check_fields {fields : List (FieldKey × Outline)} {schema : Outline → Json}
    (hn : (fields.map (·.1.name)).Nodup)
    (h : ∀ f ∈ fields, Passes registry fuel (declaredType f.1 f.2.isNull (schema f.2)))
    (enclosing path record : String) (taken seen : List String)
    (htaken : ∀ f ∈ fields, f.1.name ∉ taken) :
    ∃ after, checkFields registry fuel enclosing path record taken seen (fields.map fun f =>
      .obj (Outline.fieldMembers altNamesKey f.1 f.2.isNull (schema f.2))) = .ok after := by
  induction fields generalizing taken seen with
  | nil =>
    rw [List.map_nil, checkFields]
    exact ⟨seen, rfl⟩
  | cons f fields ih =>
    rw [List.map_cons, List.nodup_cons] at hn
    rw [List.map_cons, checkFields]
    have hname : Schema.nameOf (.obj (Outline.fieldMembers altNamesKey f.1 f.2.isNull
        (schema f.2))) = f.1.name := rfl
    have hfree : taken.contains f.1.name = false := by
      rw [Bool.eq_false_iff, Ne, List.contains_iff_mem]
      exact htaken f List.mem_cons_self
    obtain ⟨seen', hhere⟩ := h f List.mem_cons_self enclosing (path ++ "/" ++ f.1.name) seen
    obtain ⟨after, hafter⟩ := ih hn.2 (fun g hg => h g (List.mem_cons_of_mem _ hg))
      (f.1.name :: taken) seen' fun g hg hm => by
        rcases List.mem_cons.mp hm with e | hm
        · exact hn.1 (e ▸ List.mem_map_of_mem hg)
        · exact htaken g (List.mem_cons_of_mem _ hg) hm
    refine ⟨after, ?_⟩
    rw [get_type]
    simp only [Json.has, get_name, hname, hfree, hhere, hafter, Option.isSome_some, Bool.not_true,
      Bool.false_eq_true, if_false]

theorem schema_not_union {o : Outline} (h : o.Valid) :
    ∀ js, o.schema altNamesKey names ≠ .arr js := by
  intro js
  cases h with
  | scalar h =>
    simp only [scalarTypes_eq, List.mem_cons, List.not_mem_nil, or_false] at h
    rcases h with rfl | rfl | rfl | rfl | rfl | rfl | rfl | rfl | rfl <;> exact Json.noConfusion
  | _ => exact Json.noConfusion

theorem passes_optional {o : Outline} (hv : o.Valid)
    (h : Passes registry fuel (o.schema altNamesKey names)) (nullable : Bool) :
    Passes registry fuel (Outline.optional nullable (o.schema altNamesKey names)) := by
  rw [Outline.optional_schema hv.knownScalar]
  split
  · exact passes_nullable h (schema_not_union hv)
  · exact h

/-- The schema of a valid outline passes the check. -/
theorem passes_schema {o : Outline} (h : o.Valid) :
    Passes registry fuel (o.schema altNamesKey names) := by
  induction h with
  | null => exact passes_null
  | scalar h => exact passes_scalar h
  | array h ih => exact passes_array (passes_optional h ih _)
  | @record site fields hkeys hnames hvalid h ih =>
    intro enclosing path seen
    rw [Outline.schema_record, schemaFields_eq, checkNode]
    simp only [typeName_record]
    rw [if_neg (by decide), if_neg (by decide), if_pos trivial]
    split
    · exact ⟨seen, rfl⟩
    · rw [lookup_fields]
      refine check_fields hnames (fun f hf => ?_) _ _ _ _ _ fun _ _ => List.not_mem_nil
      unfold declaredType
      split
      · exact ih f hf
      · exact passes_optional (h f hf) (ih f hf) _

end check

theorem check_schema {o : Outline} (h : o.Valid) :
    Schema.check (o.schema altNamesKey names) =
      .ok (Registry.ofSchema (o.schema altNamesKey names)) := by
  generalize hs : o.schema altNamesKey names = schema
  have hpass : Passes (Registry.ofSchema schema) (Registry.depthBound schema) schema :=
    hs ▸ passes_schema h
  obtain ⟨after, hafter⟩ := hpass "" Pointer.root []
  rw [Schema.check]
  simp only [hafter]

/-! ## Layouts -/

/-- The layout of a scalar type. -/
def scalarLayout (type : Json) : Layout :=
  let primitive := (Primitive.ofName? (Schema.typeName type)).getD .null
  .primitive primitive (Layout.meaning? primitive type.members)

/-- A layout that may be null, or as it is. -/
def optionalLayout (nullable : Bool) (layout : Layout) : Layout :=
  if nullable then .union [.primitive .null none, layout] else layout

mutual

/-- The layout of an outline's schema. -/
def Outline.layout (names : List (Position × String)) : Outline → Layout
  | null => .primitive .null none
  | scalar type => scalarLayout type
  | array nullable items => .array (optionalLayout (nullable && !items.isNull) (layout names items))
  | record site fields => .record (recordName names site) (fieldLayouts names fields)

def Outline.fieldLayouts (names : List (Position × String)) :
    List (FieldKey × Outline) → List (String × Option Json × Layout)
  | [] => []
  | (field, outline) :: fields =>
    (field.name, (if outline.isNull || field.nullable then some Json.null else none),
      optionalLayout (field.nullable && !outline.isNull) (layout names outline)) ::
        fieldLayouts names fields

end

/-- A default that fits a type: none, or null where the type is null or may be null. -/
def nullDefault (given : Bool) : Option Json := if given then some .null else none

theorem layout_null (declared : List String) (enclosing : String) (given : Bool) :
    Layout.ofNode declared enclosing (nullDefault given) (.str "null") =
      .ok (.primitive .null none, declared) := by
  rw [Layout.ofNode]
  cases given <;> rfl

theorem layout_scalar {type : Json} (h : type ∈ scalarTypes) (declared : List String)
    (enclosing : String) :
    Layout.ofNode declared enclosing none type = .ok (scalarLayout type, declared) := by
  simp only [scalarTypes_eq, List.mem_cons, List.not_mem_nil, or_false] at h
  rcases h with rfl | rfl | rfl | rfl | rfl | rfl | rfl | rfl | rfl <;>
    (rw [Layout.ofNode]; rfl)

theorem layout_nullable {j : Json} {declared after : List String} {enclosing : String}
    {layout : Layout} (given : Bool)
    (h : Layout.ofNode declared enclosing none j = .ok (layout, after)) :
    Layout.ofNode declared enclosing (nullDefault given) (.arr [.str "null", j]) =
      .ok (optionalLayout true layout, after) := by
  have hnull := layout_null declared enclosing false
  have hmembers : Layout.ofMembers declared enclosing [.str "null", j] =
      .ok ([.primitive .null none, layout], after) := by
    rw [Layout.ofMembers, show (none : Option Json) = nullDefault false from rfl, hnull]
    simp only [Layout.ofMembers, h]
  rw [Layout.ofNode, hmembers]
  cases given <;> rfl

theorem layout_array {j : Json} {declared after : List String} {enclosing : String}
    {layout : Layout} (h : Layout.ofNode declared enclosing none j = .ok (layout, after)) :
    Layout.ofNode declared enclosing none (.obj [("type", .str "array"), ("items", j)]) =
      .ok (.array layout, after) := by
  rw [Layout.ofNode]
  simp [Schema.typeName, Schema.typeNode, lookup?, Json.text?, Layout.checkLogical,
    Layout.requireDefault, h, Except.map]

theorem layout_declared {o : Outline} (hv : o.Valid) (field : FieldKey) {declared after : List String}
    {enclosing : String}
    (h : Layout.ofNode declared enclosing none (o.schema altNamesKey names) =
      .ok (o.layout names, after)) :
    Layout.ofNode declared enclosing (nullDefault (o.isNull || field.nullable))
        (declaredType field o.isNull (o.schema altNamesKey names)) =
      .ok (optionalLayout (field.nullable && !o.isNull) (o.layout names), after) := by
  cases hnull : o.isNull with
  | true =>
    cases o with
    | null =>
      have hafter := (layout_null declared enclosing false).symm.trans h
      cases hafter
      rw [Bool.not_true, Bool.and_false]
      exact layout_null _ _ _
    | _ => cases hnull
  | false =>
    rw [declaredType, if_neg Bool.false_ne_true, Outline.optional_schema hv.knownScalar, hnull,
      Bool.not_false, Bool.and_true]
    cases field.nullable with
    | true => exact layout_nullable true h
    | false => exact h

theorem layout_fields {fields : List (FieldKey × Outline)} {enclosing : String}
    (hv : ∀ f ∈ fields, Outline.Valid f.2)
    (h : ∀ f ∈ fields, ∀ declared, (f.2.sites.map (recordName names)).Nodup →
      (∀ s ∈ f.2.sites, recordName names s ∉ declared) →
      Layout.ofNode declared enclosing none (f.2.schema altNamesKey names) =
        .ok (f.2.layout names, (f.2.sites.map (recordName names)).reverse ++ declared))
    (declared : List String) (hn : ((Outline.fieldSites fields).map (recordName names)).Nodup)
    (hfree : ∀ s ∈ Outline.fieldSites fields, recordName names s ∉ declared) :
    Layout.ofFields declared enclosing (fields.map fun f =>
        .obj (Outline.fieldMembers altNamesKey f.1 f.2.isNull (f.2.schema altNamesKey names))) =
      .ok (Outline.fieldLayouts names fields,
        ((Outline.fieldSites fields).map (recordName names)).reverse ++ declared) := by
  induction fields generalizing declared with
  | nil =>
    rw [List.map_nil, Layout.ofFields]
    rfl
  | cons f fields ih =>
    rw [Outline.fieldSites, List.map_append, List.nodup_append] at hn
    rw [Outline.fieldSites] at hfree
    have hhere := layout_declared (hv f List.mem_cons_self) f.1
      (h f List.mem_cons_self declared hn.1 fun s hs => hfree s (List.mem_append_left _ hs))
    have hrest := ih (fun g hg => hv g (List.mem_cons_of_mem _ hg))
      (fun g hg => h g (List.mem_cons_of_mem _ hg))
      ((f.2.sites.map (recordName names)).reverse ++ declared) hn.2.1 fun s hs hm => by
        rcases List.mem_append.mp hm with hm | hm
        · exact hn.2.2 _ (List.mem_reverse.mp hm) _ (List.mem_map_of_mem hs) rfl
        · exact hfree s (List.mem_append_right _ hs) hm
    rw [List.map_cons, Layout.ofFields, get_type]
    have hname : Schema.nameOf (.obj (Outline.fieldMembers altNamesKey f.1 f.2.isNull
        (f.2.schema altNamesKey names))) = f.1.name := rfl
    simp only [Json.isObj, getD_aliases, Layout.isArray, Json.has, get_name, Option.isSome_some,
      get_default, hname, Bool.not_true, Bool.false_eq_true, if_false]
    rw [show (if (f.2.isNull || f.1.nullable) = true then some Json.null else none) =
      nullDefault (f.2.isNull || f.1.nullable) from rfl]
    simp only [hhere, hrest]
    rw [Outline.fieldSites, List.map_append, List.reverse_append, List.append_assoc]
    rfl

/-- The layout of a schema declares every record once. -/
theorem layout_schema {o : Outline} (hv : o.Valid) {enclosing : String}
    (hp : o.Placed names enclosing) (declared : List String)
    (hn : (o.sites.map (recordName names)).Nodup)
    (hfree : ∀ s ∈ o.sites, recordName names s ∉ declared) :
    Layout.ofNode declared enclosing none (o.schema altNamesKey names) =
      .ok (o.layout names, (o.sites.map (recordName names)).reverse ++ declared) := by
  induction hv generalizing enclosing declared with
  | null => exact layout_null _ _ false
  | scalar h => exact layout_scalar h _ _
  | @array nullable items hv ih =>
    cases hp with
    | array hp =>
      have hitems := ih hp declared hn hfree
      refine layout_array ?_
      rw [Outline.optional_schema hv.knownScalar]
      cases nullable && !items.isNull with
      | true => exact layout_nullable false hitems
      | false => exact hitems
  | @record site fields hkeys hnames hvalid hv ih =>
    cases hp with
    | record hname hplace hp =>
      rw [Outline.sites, List.map_cons, List.nodup_cons] at hn
      rw [Outline.sites] at hfree
      have hfresh : Layout.freshName declared enclosing (recordMembers names site
          (Outline.schemaFields altNamesKey names fields)) =
          .ok (site.namespaceName, recordName names site) := by
        rw [Layout.freshName, Layout.schemaName_eq, fullName_record _ hname hplace,
          splitName_record hname]
        rw [if_neg (by simp [recordMembers, lookup?])]
        simp only [List.contains_iff_mem, hfree _ List.mem_cons_self, if_false]
      have hfields := layout_fields hv (fun f hf declared => ih f hf (hp f hf) declared)
        (recordName names site :: declared) hn.2 fun s hs hm => by
          rcases List.mem_cons.mp hm with e | hm
          · exact hn.1 (e ▸ List.mem_map_of_mem hs)
          · exact hfree s (List.mem_cons_of_mem _ hs) hm
      have hkind := typeName_record names site (Outline.schemaFields altNamesKey names fields)
      have hplain : Layout.checkLogical (recordMembers names site
          (Outline.schemaFields altNamesKey names fields)) = .ok () := by
        rw [Layout.checkLogical, lookup_logicalType]
        rfl
      rw [Outline.schema_record, Layout.ofNode, lookup_type]
      simp only [hplain, hkind, hfresh]
      rw [lookup_fields, schemaFields_eq]
      simp only [hfields]
      rw [Outline.sites, List.map_cons, List.reverse_cons, List.append_assoc]
      rfl

/-! ## Finished schemas -/

theorem Outline.Placed.valid_names {o : Outline} {enclosing : String} (h : o.Placed names enclosing) :
    ∀ s ∈ o.sites, ValidName (Outline.nameAt names s) := by
  induction h with
  | null | scalar => exact fun s hs => absurd hs List.not_mem_nil
  | array _ ih => exact ih
  | @record enclosing site fields hname _ _ ih =>
    intro s hs
    rw [Outline.sites] at hs
    rcases List.mem_cons.mp hs with rfl | hs
    · exact hname
    · rw [fieldSites_eq] at hs
      obtain ⟨f, hf, hs⟩ := List.mem_flatMap.mp hs
      exact ih f hf s hs

/-- No two records of a placed outline have one full name. -/
theorem Outline.Placed.nodup_recordNames {o : Outline} {enclosing : String}
    (h : o.Placed (recordNames o.sites) enclosing) (hd : (o.sites.map (·.position)).Nodup) :
    (o.sites.map (recordName (recordNames o.sites))).Nodup := by
  have hmarked := nodup_markedNames hd
  rw [List.nodup_iff_pairwise_ne, List.pairwise_map] at hmarked ⊢
  refine List.Pairwise.imp_of_mem ?_ hmarked
  intro s t hs ht hne e
  exact hne (markedName_eq (h.valid_names s hs) (h.valid_names t ht) e)

theorem placed_outlineOf {docs : List Value} (hd : ∀ d ∈ docs, Supported d)
    (typeName namespaceName : String) :
    (outlineOf typeName namespaceName docs).Placed
      (recordNames (outlineOf typeName namespaceName docs).sites) "" := by
  have ho := outlined_outlineOf hd typeName namespaceName
  exact placed_of_outlined ho (Schema.avroName_valid _) (fun _ => rfl) fun s hs =>
    valid_nameAt (sites_of_outlined ho).1 hs

/-- Every type of an inferred schema is supported. -/
theorem check_finished {docs : List Value} (hd : ∀ d ∈ docs, Supported d)
    (typeName namespaceName altNamesKey : String) :
    let schema := (outlineOf typeName namespaceName docs).finished altNamesKey
    Schema.check schema = .ok (Registry.ofSchema schema) :=
  check_schema (valid_of_outlined (outlined_outlineOf hd typeName namespaceName))

/-- An inferred schema has the layout of its outline. -/
theorem layout_finished {docs : List Value} (hd : ∀ d ∈ docs, Supported d)
    (typeName namespaceName altNamesKey : String) :
    let o := outlineOf typeName namespaceName docs
    Layout.ofSchema (o.finished altNamesKey) = .ok (o.layout (recordNames o.sites)) := by
  intro o
  have ho := outlined_outlineOf hd typeName namespaceName
  have hp := placed_outlineOf hd typeName namespaceName
  rw [Layout.ofSchema, Outline.finished,
    layout_schema (valid_of_outlined ho) hp [] (hp.nodup_recordNames (sites_of_outlined ho).1)
      fun _ _ => List.not_mem_nil]
  rfl

end Inference
end AvroDocument
