import AvroDocument.Encoding
import AvroDocument.Proofs.OutlineSchema
import AvroDocument.Proofs.Texts

/-!
# AvroDocument.Proofs.Preparation

The data that are written for documents of an outline.

* `Outline.image`: what becomes of a value, position by position.
* `prepare_admits`: a value that an outline has room for is prepared against its schema, whatever the
  options for reading text, and nothing that a struct holds is passed over.
-/

namespace AvroDocument

/-- What holds of null and everywhere in a struct holds everywhere in its values, missing ones counting
as null. -/
theorem Value.Everywhere.member {p : Value → Prop} {es : List (Key × Value)}
    (h : (Value.struct es).Everywhere p) (hnull : p .null) (key : String) :
    ((Value.member? key es).getD .null).Everywhere p := by
  cases hentry : Value.member? key es with
  | none => exact fun w hw => List.mem_singleton.mp hw ▸ hnull
  | some w => exact h.entry (Value.mem_of_member? hentry)

theorem Encoding.isNull_eq {v : Value} (h : v ≠ .null) : isNull v = false := by
  cases v with
  | null => exact absurd rfl h
  | _ => rfl

namespace Inference

open Encoding (prepareNode prepareItems prepareFields)

/-! ## Images -/

/-- Bytes of both kinds are one. -/
def plainScalar : Value → Value
  | .byteArray bs => .bytes bs
  | v => v

mutual

/-- What becomes of a value: structs get all fields of their record, under names that `label` gives,
string positions hold text, and `leaf` tells what other scalars become. -/
def Outline.image (label : FieldKey → String) (leaf : Value → Value) : Outline → Value → Value
  | null, _ => .null
  | scalar type, v =>
    if v.kind? = some .null then .null
    else if type.isStr "string" then .text v.written
    else leaf v
  | array _ items, v =>
    match v.items? with
    | some vs => .list (vs.map (image label leaf items))
    | none => .null
  | record _ fields, v =>
    match v with
    | .struct es => .struct (fieldImages label leaf fields es)
    | _ => .null

def Outline.fieldImages (label : FieldKey → String) (leaf : Value → Value) :
    List (FieldKey × Outline) → List (Key × Value) → List (Key × Value)
  | [], _ => []
  | (field, outline) :: fields, es =>
    (.text (label field), image label leaf outline ((Value.member? field.key es).getD .null)) ::
      fieldImages label leaf fields es

end

theorem kind?_null {v : Value} : v.kind? = some .null ↔ v = .null := by
  constructor
  · intro h
    cases v with
    | null => rfl
    | int n =>
      simp only [Value.kind?] at h
      split at h <;> cases h
    | _ => cases h
  · rintro rfl
    rfl

section image

variable (label : FieldKey → String) (leaf : Value → Value)

theorem image_null (o : Outline) : o.image label leaf .null = .null := by
  cases o <;> rfl

theorem image_text {v : Value} (h : v ≠ .null) :
    (Outline.scalar widest).image label leaf v = .text v.written := by
  rw [Outline.image, if_neg (mt kind?_null.mp h), if_pos (by decide)]

theorem isStr_of_ne_widest {type : Json} (h : type ≠ widest) : type.isStr "string" = false := by
  rw [Bool.eq_false_iff]
  intro hs
  refine h ?_
  cases type with
  | str s =>
    have e : s = "string" := by simpa [Json.isStr, Json.text?] using hs
    rw [e, widest]
  | _ => cases hs

theorem image_leaf {type : Json} {v : Value} (hw : type ≠ widest) (h : leafType? v = some type) :
    (Outline.scalar type).image label leaf v = leaf v := by
  have hn : v ≠ .null := by
    rintro rfl
    cases h
  rw [Outline.image, if_neg (mt kind?_null.mp hn), isStr_of_ne_widest hw, if_neg (by simp)]

theorem image_items {v : Value} {vs : List Value} (h : v.items? = some vs) (nullable : Bool)
    (items : Outline) :
    (Outline.array nullable items).image label leaf v = .list (vs.map (items.image label leaf)) := by
  rw [Outline.image, h]

theorem fieldImages_eq (fields : List (FieldKey × Outline)) (es : List (Key × Value)) :
    Outline.fieldImages label leaf fields es = fields.map fun f =>
      (.text (label f.1), f.2.image label leaf ((Value.member? f.1.key es).getD .null)) := by
  induction fields with
  | nil => rfl
  | cons f fields ih => rw [Outline.fieldImages, ih, List.map_cons]

end image

/-! ## Null and unions with null -/

section prepare

variable {options : Options} {registry : Schema.Registry} {enclosing path : String}
  {names : List (Position × String)}

theorem prepare_null : prepareNode options registry enclosing path (.str "null") .null =
    .ok .null := by
  rw [prepareNode]
  · rfl
  · exact fun _ => Json.noConfusion

theorem prepare_nullable_null (j : Json) :
    prepareNode options registry enclosing path (.arr [.str "null", j]) .null = .ok .null := by
  rw [prepareNode]
  split <;> rfl

/-- The type beside null is the one that a union asks for what is not null. -/
theorem find?_nullable {j : Json} (hj : Schema.isNullMember j = false) :
    [.str "null", j].find? (fun m => !Schema.isNullMember m) = some j := by
  rw [List.find?_cons_of_neg (by decide), List.find?_cons_of_pos (by rw [hj]; rfl)]

theorem prepare_nullable {j : Json} {v d : Value} (hv : v ≠ .null)
    (hj : Schema.isNullMember j = false) (ht : Encoding.isNullText options j v = false)
    (h : prepareNode options registry enclosing path j v = .ok d) :
    prepareNode options registry enclosing path (.arr [.str "null", j]) v = .ok d := by
  rw [prepareNode, find?_nullable hj]
  simp only [Encoding.isNull_eq hv, ht, Bool.or_false, Bool.false_eq_true, if_false, h]

theorem not_nullMember {o : Outline} (h : o.Valid) (hn : o.isNull = false) (altNamesKey : String) :
    Schema.isNullMember (o.schema altNamesKey names) = false := by
  cases h with
  | null => cases hn
  | scalar h =>
    simp only [scalarTypes_eq, List.mem_cons, List.not_mem_nil, or_false] at h
    rcases h with rfl | rfl | rfl | rfl | rfl | rfl | rfl | rfl | rfl <;> rfl
  | array _ => rfl
  | record _ _ _ _ => rfl

theorem isNullable_schema {o : Outline} (hv : o.Valid) {altNamesKey : String} :
    Schema.isNullable (o.schema altNamesKey names) = o.isNull := by
  cases hv with
  | scalar h =>
    simp only [scalarTypes_eq, List.mem_cons, List.not_mem_nil, or_false] at h
    rcases h with rfl | rfl | rfl | rfl | rfl | rfl | rfl | rfl | rfl <;> rfl
  | _ => rfl

theorem prepare_added {o : Outline} (h : o.Valid) :
    prepareNode options registry enclosing path
      (Outline.optional true (o.schema options.altNamesKey names)) .null = .ok .null := by
  rw [Outline.optional_schema h.knownScalar]
  cases h with
  | null => exact prepare_null
  | _ => exact prepare_nullable_null _

/-- Text only stands at string positions, where none stands for null. -/
theorem isNullText_schema {o : Outline} {v : Value} (ht : ∀ s, v = .text s → o = .scalar widest) :
    Encoding.isNullText options (o.schema options.altNamesKey names) v = false := by
  cases v with
  | text s =>
    rw [ht s rfl]
    simp [Encoding.isNullText, Outline.schema, Schema.typeName, Schema.typeNode, Json.text?, widest]
  | _ => rfl

/-- A value that is not null is prepared as if null had not been added to the type. -/
theorem prepare_optional {o : Outline} (hv : o.Valid) {nullable : Bool} {v d : Value}
    (hn : v ≠ .null) (ht : ∀ s, v = .text s → o = .scalar widest)
    (h : prepareNode options registry enclosing path (o.schema options.altNamesKey names) v =
      .ok d) :
    prepareNode options registry enclosing path
      (Outline.optional nullable (o.schema options.altNamesKey names)) v = .ok d := by
  rw [Outline.optional_schema hv.knownScalar]
  split
  · rename_i hnull
    rw [Bool.and_eq_true, Bool.not_eq_true'] at hnull
    exact prepare_nullable hn (not_nullMember hv hnull.2 _) (isNullText_schema ht) h
  · exact h

/-! ## Scalars -/

/-- Text at a string position is not read. -/
theorem readValue_widest (v : Value) : Coercion.readValue options widest v = .ok v := by
  cases v with
  | text s =>
    have hno : (options.parseStrings && decide (Schema.typeName widest ≠ "string")) = false := by
      simp [widest, Schema.typeName, Schema.typeNode, Json.text?]
    rw [Coercion.readValue, hno]
    rfl
  | _ => rfl

theorem coerce_text {v : Value} (hs : Supported v) (hi : ReadableIntegers v) :
    coerce options path widest v = .ok (.text v.written) := by
  have hconvert : Coercion.convert options path widest v = .ok (.text v.written) := by
    rw [show Coercion.convert options path widest v = Coercion.toString v from rfl,
      Coercion.toString, toText_of_supported hs hi]
  cases v with
  | uuid _ | set _ | missing => exact absurd hs.here (by simp [Value.isPlain, Value.kind?])
  | _ =>
    unfold coerce
    simp only [readValue_widest, hconvert]

/-- A scalar at a node of its own type stays what it is. -/
theorem coerce_leaf {type : Json} {v : Value} (hw : type ≠ widest) (h : leafType? v = some type) :
    coerce options path type v = .ok (plainScalar v) := by
  cases v with
  | bool b =>
    cases h
    rfl
  | int n =>
    rw [leafType?, if_pos (show isLeaf (.int n) = true from rfl), scalarType?_int,
      Option.some.injEq] at h
    split at h
    · rename_i hfits
      subst h
      simp [coerce, Coercion.readValue, Coercion.convert, Schema.typeName, Schema.typeNode,
        Json.text?, Schema.logicalName?, Schema.logicalNode?, Json.get?, Json.members, lookup?,
        Coercion.toInteger, Schema.timeNames, Schema.timestampNames, Schema.localTimestampNames,
        hfits, plainScalar]
    · exact absurd h.symm hw
  | float x =>
    cases h
    rfl
  | decimal d | text s => exact absurd (Option.some.inj h).symm hw
  | timestamp t =>
    obtain ⟨wall, bounded, offset⟩ := t
    cases offset <;> (cases h; rfl)
  | date d =>
    cases h
    rfl
  | time t =>
    cases h
    rfl
  | bytes bs =>
    cases h
    rfl
  | byteArray bs =>
    cases h
    rfl
  | null | struct _ | list _ | tuple _ | uuid _ | set _ | missing => cases h

/-- Scalar types are no references and no declarations. -/
theorem resolve_scalar {type : Json} (h : type ∈ scalarTypes) :
    registry.resolve type enclosing = .ok (type, enclosing) := by
  simp only [scalarTypes_eq, List.mem_cons, List.not_mem_nil, or_false] at h
  rcases h with rfl | rfl | rfl | rfl | rfl | rfl | rfl | rfl | rfl <;> rfl

theorem kind_scalar {type : Json} (h : type ∈ scalarTypes) :
    Schema.typeName type ∈ ["boolean", "int", "long", "double", "bytes", "string"] := by
  simp only [scalarTypes_eq, List.mem_cons, List.not_mem_nil, or_false] at h
  rcases h with rfl | rfl | rfl | rfl | rfl | rfl | rfl | rfl | rfl <;> decide

theorem scalar_ne_arr {type : Json} (h : type ∈ scalarTypes) (js : List Json) : type ≠ .arr js := by
  rintro rfl
  exact absurd (kind_scalar h) (show "union" ∉ _ by decide)

theorem prepare_scalar {type : Json} (h : type ∈ scalarTypes) {v : Value} (hn : v ≠ .null) :
    prepareNode options registry enclosing path type v = coerce options path type v := by
  have hk := kind_scalar h
  have hrecord : Schema.typeName type ≠ "record" := fun e => absurd (e ▸ hk) (by decide)
  have harray : Schema.typeName type ≠ "array" := fun e => absurd (e ▸ hk) (by decide)
  rw [prepareNode]
  · simp only [resolve_scalar h, hrecord, harray, if_false]
  · exact scalar_ne_arr h

/-! ## Lists -/

theorem prepare_items {items : Json} {image : Value → Value} {vs : List Value}
    (h : ∀ v ∈ vs, ∀ path, prepareNode options registry enclosing path items v = .ok (image v))
    (index : Nat) :
    prepareItems options registry enclosing path index items vs = .ok (vs.map image) := by
  induction vs generalizing index with
  | nil =>
    rw [prepareItems]
    rfl
  | cons v vs ih =>
    rw [prepareItems, h v List.mem_cons_self]
    simp only [ih (fun w hw => h w (List.mem_cons_of_mem _ hw))]
    rw [List.map_cons]

theorem prepare_array {items : Json} {v : Value} {vs : List Value} {image : Value → Value}
    (hi : v.items? = some vs)
    (h : ∀ w ∈ vs, ∀ path, prepareNode options registry enclosing path items w = .ok (image w)) :
    prepareNode options registry enclosing path (.obj [("type", .str "array"), ("items", items)]) v =
      .ok (.list (vs.map image)) := by
  have hresolve : registry.resolve (.obj [("type", .str "array"), ("items", items)]) enclosing =
      .ok (.obj [("type", .str "array"), ("items", items)], enclosing) := rfl
  have hkind : Schema.typeName (.obj [("type", .str "array"), ("items", items)]) = "array" := rfl
  have hitems : Schema.itemsOf (.obj [("type", .str "array"), ("items", items)]) = items := rfl
  rw [prepareNode]
  · simp only [hresolve, hkind, hitems]
    rw [if_neg (by decide), if_pos trivial, hi]
    simp only [prepare_items h]
  · exact fun _ => Json.noConfusion

/-! ## Structs -/

theorem altName_field (altNamesKey : String) (field : FieldKey) (alwaysNull : Bool) (type : Json) :
    Schema.altName (.obj (Outline.fieldMembers altNamesKey field alwaysNull type)) altNamesKey =
      field.key := by
  rw [Schema.altName, Schema.altName?, fieldMembers_eq, fieldNotes]
  by_cases hn : field.name = field.key <;>
    by_cases hd : (alwaysNull || field.nullable) = true <;>
      simp [hn, hd, Json.get?, Json.members, lookup?, Json.text?]

/-- A type that is null already stays as it is when null is added. -/
theorem declaredType_eq {o : Outline} (h : o.Valid) (field : FieldKey) (altNamesKey : String) :
    declaredType field o.isNull (o.schema altNamesKey names) =
      Outline.optional field.nullable (o.schema altNamesKey names) := by
  rw [declaredType, Outline.optional_schema h.knownScalar]
  cases o.isNull <;> simp

/-- A field of a struct's record. -/
def fieldSchema (altNamesKey : String) (names : List (Position × String))
    (f : FieldKey × Outline) : Json :=
  .obj (Outline.fieldMembers altNamesKey f.1 f.2.isNull (f.2.schema altNamesKey names))

theorem typeOf_field {f : FieldKey × Outline} (h : f.2.Valid) (altNamesKey : String) :
    Schema.typeOf (fieldSchema altNamesKey names f) =
      Outline.optional f.1.nullable (f.2.schema altNamesKey names) :=
  declaredType_eq h f.1 altNamesKey

/-- A struct that a record has room for is read under the keys of the fields only. -/
theorem sourceKey?_field {fields : List (FieldKey × Outline)} {es : List (Key × Value)}
    (hkeys : ∀ e ∈ es, ∃ f ∈ fields, e.1 = .text f.1.key) (f : FieldKey × Outline) :
    Encoding.sourceKey? options
        (Encoding.claimedNames options (fields.map (fieldSchema options.altNamesKey names))) es
        (fieldSchema options.altNamesKey names f) =
      if Encoding.hasEntry f.1.key es then some f.1.key else none := by
  have hclaimed : Encoding.claimedNames options
      (fields.map (fieldSchema options.altNamesKey names)) = fields.map (·.1.key) := by
    rw [Encoding.claimedNames, List.map_map]
    exact List.map_congr_left fun g _ => altName_field _ _ _ _
  have hother : (!(fields.map (·.1.key)).contains f.1.name && Encoding.hasEntry f.1.name es) =
      false := by
    rw [Bool.and_eq_false_iff]
    cases hentry : Encoding.hasEntry f.1.name es with
    | false => exact .inr rfl
    | true =>
      rw [Encoding.hasEntry, Value.member?_isSome] at hentry
      obtain ⟨e, he, hk⟩ := List.mem_map.mp hentry
      obtain ⟨g, hg, hgk⟩ := hkeys e he
      rw [hk, Key.text.injEq] at hgk
      refine .inl ?_
      rw [Bool.not_eq_false', List.contains_iff_mem, hgk]
      exact List.mem_map_of_mem hg
  have hname : Schema.nameOf (fieldSchema options.altNamesKey names f) = f.1.name := rfl
  have hkey : Schema.altName (fieldSchema options.altNamesKey names f) options.altNamesKey =
      f.1.key := altName_field _ _ _ _
  simp only [Encoding.sourceKey?, hname, hkey, hclaimed, hother, Bool.false_eq_true, if_false]

/-- A field that a struct lacks is null. -/
theorem absentValue_field {f : FieldKey × Outline} (hv : f.2.Valid)
    (h : Admits f.2 f.1.nullable .null) :
    Encoding.absentValue options path (fieldSchema options.altNamesKey names f) = .ok .null := by
  have hnull : Schema.isNullable (Outline.optional f.1.nullable
      (f.2.schema options.altNamesKey names)) = true := by
    rw [Outline.optional_schema hv.knownScalar]
    obtain ⟨⟨key, name, nullable⟩, o⟩ := f
    simp only at h hv ⊢
    cases h with
    | added => cases o <;> rfl
    | nothing => cases nullable <;> rfl
    | text hn _ => exact absurd rfl hn
    | scalar _ h => cases h
    | list h _ => cases h
  rw [Encoding.absentValue, typeOf_field hv, if_pos hnull]

theorem prepare_fields {all fields : List (FieldKey × Outline)} {es : List (Key × Value)}
    (hkeys : ∀ e ∈ es, ∃ f ∈ all, e.1 = .text f.1.key) (hv : ∀ f ∈ fields, Outline.Valid f.2)
    (ha : ∀ f ∈ fields, Admits f.2 f.1.nullable ((Value.member? f.1.key es).getD .null))
    (h : ∀ f ∈ fields, ∀ path, prepareNode options registry enclosing path
      (Outline.optional f.1.nullable (f.2.schema options.altNamesKey names))
      ((Value.member? f.1.key es).getD .null) =
        .ok (f.2.image (·.name) plainScalar ((Value.member? f.1.key es).getD .null))) :
    prepareFields options registry enclosing path
        (Encoding.claimedNames options (all.map (fieldSchema options.altNamesKey names)))
        (fields.map (fieldSchema options.altNamesKey names)) es =
      .ok (Outline.fieldImages (·.name) plainScalar fields es) := by
  induction fields with
  | nil =>
    rw [List.map_nil, prepareFields]
    rfl
  | cons f fields ih =>
    have hrest := ih (fun g hg => hv g (List.mem_cons_of_mem _ hg))
      (fun g hg => ha g (List.mem_cons_of_mem _ hg)) fun g hg => h g (List.mem_cons_of_mem _ hg)
    have hhere := h f List.mem_cons_self
    have habsent := ha f List.mem_cons_self
    have hname : Schema.nameOf (fieldSchema options.altNamesKey names f) = f.1.name := rfl
    rw [List.map_cons, prepareFields, sourceKey?_field hkeys, typeOf_field (hv f List.mem_cons_self),
      hrest, hname]
    rw [Outline.fieldImages]
    cases hentry : Value.member? f.1.key es with
    | none =>
      rw [hentry] at habsent
      rw [Encoding.hasEntry, hentry]
      simp only [Option.isSome_none, Bool.false_eq_true, if_false, Option.getD_none,
        absentValue_field (hv f List.mem_cons_self) habsent, image_null]
    | some v =>
      rw [hentry] at hhere
      rw [Encoding.hasEntry, hentry]
      simp only [Option.isSome_some, if_true]
      rw [hentry]
      simp only [Option.getD_some] at hhere
      simp only [hhere, Option.getD_some]

/-- Every key of a struct that a record has room for is read. -/
theorem checkDeclared_ok {schema : Json} {known : List String} {es : List (Key × Value)}
    (h : ∀ e ∈ es, ∃ key ∈ known, e.1 = .text key) :
    Encoding.checkDeclared path schema known es = .ok () := by
  induction es with
  | nil => rfl
  | cons e es ih =>
    obtain ⟨k, v⟩ := e
    obtain ⟨key, hk, e⟩ := h (k, v) List.mem_cons_self
    simp only at e
    subst e
    rw [Encoding.checkDeclared]
    simp only [List.contains_iff_mem.mpr hk, if_true]
    exact ih fun e he => h e (List.mem_cons_of_mem _ he)

theorem known_key {fields : List (FieldKey × Outline)} {es : List (Key × Value)}
    (hkeys : ∀ e ∈ es, ∃ f ∈ fields, e.1 = .text f.1.key) :
    ∀ e ∈ es, ∃ key ∈ (fields.map (fieldSchema options.altNamesKey names)).filterMap
      (Encoding.sourceKey? options
        (Encoding.claimedNames options (fields.map (fieldSchema options.altNamesKey names))) es),
      e.1 = .text key := by
  intro e he
  obtain ⟨f, hf, hk⟩ := hkeys e he
  refine ⟨f.1.key, ?_, hk⟩
  rw [List.filterMap_map, List.mem_filterMap]
  refine ⟨f, hf, ?_⟩
  rw [Function.comp_apply, sourceKey?_field hkeys, if_pos]
  rw [Encoding.hasEntry, Value.member?_isSome, ← hk]
  exact List.mem_map_of_mem he

theorem schema_fields (altNamesKey : String) (site : RecordSite)
    (fields : List (FieldKey × Outline)) :
    (Outline.record site fields).schema altNamesKey names =
      .obj (recordMembers names site (fields.map (fieldSchema altNamesKey names))) := by
  rw [Outline.schema_record, schemaFields_eq]
  rfl

theorem resolve_record (site : RecordSite) (fields : List Json) :
    registry.resolve (.obj (recordMembers names site fields)) enclosing =
      .ok (.obj (recordMembers names site fields),
        Schema.namespaceOf (.obj (recordMembers names site fields)) enclosing) := rfl

theorem fieldsOf_record (site : RecordSite) (fields : List Json) :
    Schema.fieldsOf (.obj (recordMembers names site fields)) = fields := by
  rw [Schema.fieldsOf, Json.getD, Json.get?, Json.members, lookup_fields]
  rfl

/-- A value that an outline has room for is prepared against its schema, if no integer in it is too
long. How text is read does not matter, and a strict writer finds all keys declared. -/
theorem prepare_admits {o : Outline} {nullable : Bool} {v : Value} (h : Admits o nullable v)
    (hv : o.Valid) (hi : ReadableIntegers v) (enclosing path : String) :
    prepareNode options registry enclosing path
        (Outline.optional nullable (o.schema options.altNamesKey names)) v =
      .ok (o.image (·.name) plainScalar v) := by
  induction h generalizing enclosing path with
  | added =>
    rw [image_null]
    exact prepare_added hv
  | @nothing nullable =>
    rw [image_null]
    cases nullable <;> exact prepare_null
  | text hn hs =>
    rw [image_text _ _ hn]
    refine prepare_optional hv hn (fun _ _ => rfl) ?_
    rw [Outline.schema, prepare_scalar widest_mem hn, coerce_text hs hi]
  | @scalar nullable type v hw h =>
    have hn : v ≠ .null := by
      rintro rfl
      cases h
    rw [image_leaf _ _ hw h]
    refine prepare_optional hv hn (fun s e => ?_) ?_
    · subst e
      exact absurd (Option.some.inj h).symm hw
    · rw [Outline.schema, prepare_scalar (leafType?_mem h) hn, coerce_leaf hw h]
  | @list nullable below items v ws h _ ih =>
    have hitems : items.Valid := by
      cases hv with
      | array hi => exact hi
    rw [image_items _ _ h]
    refine prepare_optional hv ?_ (fun s e => ?_) ?_
    · rintro rfl
      cases h
    · subst e
      cases h
    · exact prepare_array h fun w hw path => ih w hw hitems (hi.item h hw) enclosing path
  | @struct nullable site fields es hkeys hall ih =>
    have hfields : ∀ f ∈ fields, Outline.Valid f.2 := by
      cases hv with
      | record _ _ _ h => exact h
    refine prepare_optional hv Value.noConfusion (fun s e => Value.noConfusion e) ?_
    rw [schema_fields, prepareNode]
    · simp only [resolve_record, typeName_record, fieldsOf_record, if_true]
      rw [prepare_fields hkeys hfields hall fun f hf path =>
        ih f hf (hfields f hf) (hi.member rfl f.1.key) _ path]
      simp only [checkDeclared_ok (known_key hkeys), ite_self]
      rfl
    · exact fun _ => Json.noConfusion

end prepare

end Inference
end AvroDocument
