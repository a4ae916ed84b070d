import AvroDocument.Decoding
import AvroDocument.Proofs.Storage

/-!
# AvroDocument.Proofs.Reconciliation

Data read back become documents again.

* `value_admits`: the stored datum of a value is reconciled to a document whose structs have their
  original keys, whether or not the reader is strict.
-/

namespace AvroDocument
namespace Inference

section value

variable {r : Reconciler} {enclosing path : String} {names : List (Position × String)}

/-! ## Null and unions with null -/

theorem value_null : r.valueNode enclosing path (.str "null") .null = .ok .null := by
  rw [Reconciler.valueNode]
  · rfl
  · exact fun _ => Json.noConfusion

theorem value_nullable_null (j : Json) :
    r.valueNode enclosing path (.arr [.str "null", j]) .null = .ok .null := by
  rw [Reconciler.valueNode]
  rfl

theorem value_nullable {j : Json} {datum v : Value} (hn : datum ≠ .null)
    (hj : Schema.isNullMember j = false) (h : r.valueNode enclosing path j datum = .ok v) :
    r.valueNode enclosing path (.arr [.str "null", j]) datum = .ok v := by
  have hfind : [.str "null", j].find? (fun m => !Schema.isNullMember m) = some j := by
    rw [List.find?_cons_of_neg (by decide), List.find?_cons_of_pos (by rw [hj]; rfl)]
  have hnull : Encoding.isNull datum = false := by
    cases datum with
    | null => exact absurd rfl hn
    | _ => rfl
  rw [Reconciler.valueNode, hfind]
  simp only [hnull, h, Bool.false_eq_true, if_false]

theorem value_added {o : Outline} (h : o.Valid) {altNamesKey : String} :
    r.valueNode enclosing path (Outline.optional true (o.schema altNamesKey names)) .null =
      .ok .null := by
  rw [Outline.optional_schema h.knownScalar]
  cases h with
  | null => exact value_null
  | _ => exact value_nullable_null _

theorem value_optional {o : Outline} (hv : o.Valid) {altNamesKey : String} {nullable : Bool}
    {datum v : Value} (hn : datum ≠ .null)
    (h : r.valueNode enclosing path (o.schema altNamesKey names) datum = .ok v) :
    r.valueNode enclosing path (Outline.optional nullable (o.schema altNamesKey names)) datum =
      .ok v := by
  rw [Outline.optional_schema hv.knownScalar]
  split
  · rename_i hnull
    rw [Bool.and_eq_true, Bool.not_eq_true'] at hnull
    exact value_nullable hn (not_nullMember hv hnull.2 _) h
  · exact h

/-! ## Scalars -/

theorem value_scalar {type : Json} (h : type ∈ scalarTypes) {datum v : Value} (hn : datum ≠ .null)
    (hc : coerce r.options path type datum = .ok v) :
    r.valueNode enclosing path type datum = .ok v := by
  have hk := kind_scalar h
  have hrecord : Schema.typeName type ≠ "record" := fun e => absurd (e ▸ hk) (by decide)
  have harray : Schema.typeName type ≠ "array" := fun e => absurd (e ▸ hk) (by decide)
  have hopaque : Schema.opaqueKinds.contains (Schema.typeName type) = false := by
    rw [Bool.eq_false_iff, Ne, List.contains_iff_mem]
    intro ho
    simp only [Schema.opaqueKinds, List.mem_cons, List.not_mem_nil, or_false] at ho
    rcases ho with e | e | e <;> exact absurd (e ▸ hk) (by decide)
  have hvalue : Decoding.scalarValue r.options path type datum = .ok v := by
    unfold Decoding.scalarValue
    simp only [hc]
  rw [Reconciler.valueNode]
  · simp only [resolve_scalar h, hrecord, harray, hopaque, hvalue, Bool.false_eq_true, if_false]
  · exact scalar_ne_arr h

theorem isAware_inUtc (t : Timestamp) : t.inUtc.isAware = t.isAware := by
  obtain ⟨wall, bounded, offset⟩ := t
  cases offset with
  | none => rfl
  | some o =>
    simp only [Timestamp.inUtc, Timestamp.instant?, Option.map_some, Timestamp.ofInstant?,
      Timestamp.ofWall?]
    split <;> rfl

/-- A stored scalar has the type of the original. -/
theorem leafType?_stored {v : Value} {type : Json} (h : leafType? v = some type) :
    leafType? (storedScalar v) = some type := by
  cases v with
  | timestamp t =>
    rw [← h]
    simp only [storedScalar, leafType?, isLeaf, if_true, scalarType?, Value.kind?, isAware_inUtc]
  | byteArray bs => exact h
  | _ => exact h

theorem plainScalar_stored (v : Value) : plainScalar (storedScalar v) = storedScalar v := by
  cases v <;> rfl

/-! ## Lists -/

theorem value_items {α : Type} {as : List α} {items : Json} {datum view : α → Value}
    (h : ∀ a ∈ as, ∀ path, r.valueNode enclosing path items (datum a) = .ok (view a))
    (index : Nat) :
    r.valueItems enclosing path index items (as.map datum) = .ok (as.map view) := by
  induction as generalizing index with
  | nil =>
    rw [List.map_nil, Reconciler.valueItems]
    rfl
  | cons a as ih =>
    rw [List.map_cons, Reconciler.valueItems, h a List.mem_cons_self]
    simp only [ih (fun b hb => h b (List.mem_cons_of_mem _ hb))]
    rw [List.map_cons]

theorem value_array {α : Type} {as : List α} {items : Json} {datum view : α → Value}
    (h : ∀ a ∈ as, ∀ path, r.valueNode enclosing path items (datum a) = .ok (view a)) :
    r.valueNode enclosing path (.obj [("type", .str "array"), ("items", items)])
      (.list (as.map datum)) = .ok (.list (as.map view)) := by
  have hresolve : r.registry.resolve (.obj [("type", .str "array"), ("items", items)]) enclosing =
      .ok (.obj [("type", .str "array"), ("items", items)], enclosing) := rfl
  have hkind : Schema.typeName (.obj [("type", .str "array"), ("items", items)]) = "array" := rfl
  have hitems : Schema.itemsOf (.obj [("type", .str "array"), ("items", items)]) = items := rfl
  rw [Reconciler.valueNode]
  · simp only [hresolve, hkind, hitems]
    rw [if_neg (by decide), if_pos trivial]
    simp only [value_items h]
  · exact fun _ => Json.noConfusion

/-! ## Structs -/

theorem sourceName?_field {es : List (Key × Value)} {altNamesKey : String}
    {f : FieldKey × Outline} (h : (Value.member? f.1.name es).isSome) :
    Decoding.sourceName? es (fieldSchema altNamesKey names f) = some f.1.name := by
  have hname : Schema.nameOf (fieldSchema altNamesKey names f) = f.1.name := rfl
  rw [Decoding.sourceName?, hname]
  exact List.find?_cons_of_pos (by simpa using h)

/-- The fields of a stored struct come back under their original keys. -/
theorem value_fields {fields : List (FieldKey × Outline)} {es : List (Key × Value)}
    {datum view : FieldKey × Outline → Value} (hkeys : (fields.map (·.1.key)).Nodup)
    (hv : ∀ f ∈ fields, Outline.Valid f.2)
    (hes : ∀ f ∈ fields, Value.member? f.1.name es = some (datum f))
    (h : ∀ f ∈ fields, ∀ path, r.valueNode enclosing path
      (Outline.optional f.1.nullable (f.2.schema r.options.altNamesKey names)) (datum f) =
        .ok (view f))
    {taken : List (Key × Value)} (ht : ∀ f ∈ fields, Key.text f.1.key ∉ taken.map (·.1)) :
    r.valueFields enclosing path taken (fields.map (fieldSchema r.options.altNamesKey names)) es =
      .ok (taken ++ Binary.entriesFor (·.1.key) view fields) := by
  induction fields generalizing taken with
  | nil =>
    rw [List.map_nil, Reconciler.valueFields, Binary.entriesFor, List.map_nil, List.append_nil]
  | cons f fields ih =>
    rw [List.map_cons, List.nodup_cons] at hkeys
    have hhere := hes f List.mem_cons_self
    have hkey : Schema.altName (fieldSchema r.options.altNamesKey names f) r.options.altNamesKey =
        f.1.key := altName_field _ _ _ _
    have hnew : ∀ g ∈ fields,
        Key.text g.1.key ∉ (taken ++ [(Key.text f.1.key, view f)]).map (·.1) := by
      intro g hg hm
      rw [List.map_append, List.mem_append] at hm
      rcases hm with hm | hm
      · exact ht g (List.mem_cons_of_mem _ hg) hm
      · rw [List.map_singleton, List.mem_singleton, Key.text.injEq] at hm
        exact hkeys.1 (hm ▸ List.mem_map_of_mem hg)
    have hrest := ih hkeys.2 (fun g hg => hv g (List.mem_cons_of_mem _ hg))
      (fun g hg => hes g (List.mem_cons_of_mem _ hg))
      (fun g hg => h g (List.mem_cons_of_mem _ hg)) hnew
    rw [List.map_cons, Reconciler.valueFields, sourceName?_field (by rw [hhere]; rfl), hkey]
    simp only
    rw [hhere, typeOf_field (hv f List.mem_cons_self)]
    simp only [h f List.mem_cons_self, Value.setEntry_new (ht f List.mem_cons_self), hrest]
    rw [List.append_assoc]
    rfl

theorem checkKnown_ok {schema : Json} {known : List String} {es : List (Key × Value)}
    (h : ∀ e ∈ es, ∃ name ∈ known, e.1 = .text name) :
    Decoding.checkKnown path schema known es = .ok () := by
  induction es with
  | nil => rfl
  | cons e es ih =>
    obtain ⟨k, v⟩ := e
    obtain ⟨name, hname, e⟩ := h (k, v) List.mem_cons_self
    simp only at e
    subst e
    rw [Decoding.checkKnown]
    simp only [Encoding.keyText, List.contains_iff_mem.mpr hname, if_true]
    exact ih fun e he => h e (List.mem_cons_of_mem _ he)

theorem value_record {site : RecordSite} {fields : List (FieldKey × Outline)}
    {datum view : FieldKey × Outline → Value} (hkeys : (fields.map (·.1.key)).Nodup)
    (hnames : (fields.map (·.1.name)).Nodup) (hv : ∀ f ∈ fields, Outline.Valid f.2)
    (h : ∀ f ∈ fields, ∀ enclosing path, r.valueNode enclosing path
      (Outline.optional f.1.nullable (f.2.schema r.options.altNamesKey names)) (datum f) =
        .ok (view f)) :
    r.valueNode enclosing path
        ((Outline.record site fields).schema r.options.altNamesKey names)
        (.struct (Binary.entriesFor (·.1.name) datum fields)) =
      .ok (.struct (Binary.entriesFor (·.1.key) view fields)) := by
  have hes : ∀ f ∈ fields, Value.member? f.1.name (Binary.entriesFor (·.1.name) datum fields) =
      some (datum f) := fun f hf =>
    Binary.member?_entriesFor hnames hf
  have hknown : ∀ e ∈ Binary.entriesFor (·.1.name) datum fields, ∃ name ∈
      (fields.map (fieldSchema r.options.altNamesKey names)).filterMap
        (Decoding.sourceName? (Binary.entriesFor (·.1.name) datum fields)),
      e.1 = .text name := by
    intro e he
    obtain ⟨f, hf, rfl⟩ := List.mem_map.mp he
    refine ⟨f.1.name, ?_, rfl⟩
    rw [List.filterMap_map, List.mem_filterMap]
    exact ⟨f, hf, sourceName?_field (by rw [hes f hf]; rfl)⟩
  have hfields : ∀ enclosing, r.valueFields enclosing path []
      (fields.map (fieldSchema r.options.altNamesKey names))
      (Binary.entriesFor (·.1.name) datum fields) = .ok (Binary.entriesFor (·.1.key) view fields) :=
    fun _ => value_fields hkeys hv hes (h · · _) fun _ _ => List.not_mem_nil
  rw [schema_fields, Reconciler.valueNode]
  · simp only [resolve_record, typeName_record, fieldsOf_record, if_true, hfields,
      checkKnown_ok hknown, ite_self]
  · exact fun _ => Json.noConfusion

end value

/-- The stored datum of a value that an outline has room for is reconciled to what the schema shows of
the value. -/
theorem value_admits {r : Reconciler} {names : List (Position × String)} {o : Outline}
    {nullable : Bool} {v : Value} (h : Admits o nullable v) (hv : o.Valid)
    (enclosing path : String) :
    r.valueNode enclosing path
        (Outline.optional nullable (o.schema r.options.altNamesKey names))
        (o.image (·.name) storedScalar v) =
      .ok (o.image (·.key) storedScalar v) := by
  induction h generalizing enclosing path with
  | added =>
    rw [image_null, image_null]
    exact value_added hv
  | @nothing nullable =>
    rw [image_null, image_null]
    cases nullable <;> exact value_null
  | @text nullable v hn hs =>
    rw [image_text _ _ hn, image_text _ _ hn]
    refine value_optional hv Value.noConfusion (value_scalar widest_mem Value.noConfusion ?_)
    have hsupported : Supported (.text v.written) := fun w hw => by
      rw [List.mem_singleton.mp hw]
      rfl
    have hreadable : ReadableIntegers (.text v.written) := fun w hw => by
      rw [List.mem_singleton.mp hw]
      rfl
    exact coerce_text hsupported hreadable
  | @scalar nullable type v hw h =>
    have hn : storedScalar v ≠ .null := by
      cases v with
      | null => cases h
      | _ => exact Value.noConfusion
    rw [image_leaf _ _ hw h, image_leaf _ _ hw h]
    refine value_optional hv hn (value_scalar (leafType?_mem h) hn ?_)
    rw [coerce_leaf hw (leafType?_stored h), plainScalar_stored]
  | @list nullable below items v ws h _ ih =>
    have hitems : items.Valid := by
      cases hv with
      | array hi => exact hi
    rw [image_items _ _ h, image_items _ _ h]
    refine value_optional hv Value.noConfusion ?_
    exact value_array fun w hw path => ih w hw hitems enclosing path
  | @struct nullable site fields es hkeys hall ih =>
    cases hv with
    | record hk hn hvalid hfields =>
      rw [Outline.image, Outline.image, fieldImages_eq, fieldImages_eq]
      refine value_optional (.record hk hn hvalid hfields) Value.noConfusion ?_
      exact value_record hk hn hfields fun f hf enclosing path =>
        ih f hf (hfields f hf) enclosing path

end Inference
end AvroDocument
