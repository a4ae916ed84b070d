import AvroDocument.Proofs.Storage

/-!
# AvroDocument.Proofs.View

What a schema shows of a document.

* `Schema.view`: records with all their fields, lists, texts, and scalars as they are.
* `view_admits`: the view of a value that an outline has room for.
-/

namespace AvroDocument
namespace Schema

mutual

/-- What a schema shows of a value: at a record all fields in the order of the schema under their
original keys, null for those that are absent; at an array the list of the items; at a string the
text of the value; elsewhere the value itself, with bytes of both kinds as one and instants in UTC. -/
def view (altNamesKey : String) (schema : Json) (v : Value) : Value :=
  if v.kind? = some .null then .null
  else
    match schema with
    | .arr members =>
      match _h : members.find? fun m => !isNullMember m with
      | some member => view altNamesKey member v
      | none => .null
    | .obj ms =>
      let kind := typeName (.obj ms)
      if kind = "record" then
        match _h : lookup? "fields" ms with
        | some (.arr fields) => .struct (viewFields altNamesKey fields v.entries)
        | _ => .struct []
      else if kind = "array" then
        match _h : lookup? "items" ms with
        | some items => .list ((v.items?.getD []).map fun w => view altNamesKey items w)
        | none => .list []
      else if kind = "string" then .text v.written
      else Inference.storedScalar v
    | schema => if schema.isStr "string" then .text v.written else Inference.storedScalar v
termination_by sizeOf schema
decreasing_by
  all_goals first
    | exact Json.sizeOf_lt_of_find? _h
    | exact Json.sizeOf_lt_items _h
    | exact Json.sizeOf_lt_obj _h

def viewFields (altNamesKey : String) (fields : List Json) (es : List (Key × Value)) :
    List (Key × Value) :=
  match fields with
  | [] => []
  | field :: fields =>
    let key := altName field altNamesKey
    let shown :=
      match _h : field.get? "type" with
      | some type => view altNamesKey type ((Value.member? key es).getD .null)
      | none => .null
    (.text key, shown) :: viewFields altNamesKey fields es
termination_by sizeOf fields
decreasing_by
  · have := Json.sizeOf_get? _h
    simp only [List.cons.sizeOf_spec]
    omega
  · simp only [List.cons.sizeOf_spec]
    omega

end

end Schema

namespace Inference

open Schema (view viewFields)

variable {names : List (Position × String)} {altNamesKey : String}

theorem view_null (schema : Json) : view altNamesKey schema .null = .null := by
  unfold view
  exact if_pos rfl

theorem view_nullable {j : Json} (hj : Schema.isNullMember j = false) (v : Value) :
    view altNamesKey (.arr [.str "null", j]) v = view altNamesKey j v := by
  by_cases hn : v = .null
  · rw [hn, view_null, view_null]
  · have hfind : [.str "null", j].find? (fun m => !Schema.isNullMember m) = some j := by
      rw [List.find?_cons_of_neg (by decide), List.find?_cons_of_pos (by rw [hj]; rfl)]
    rw [view, if_neg (mt kind?_null.mp hn), hfind]

/-- Null added to a type does not change the view. -/
theorem view_optional {o : Outline} (hv : o.Valid) (nullable : Bool) (v : Value) :
    view altNamesKey (Outline.optional nullable (o.schema altNamesKey names)) v =
      view altNamesKey (o.schema altNamesKey names) v := by
  rw [Outline.optional_schema hv.knownScalar]
  split
  · rename_i hnull
    rw [Bool.and_eq_true, Bool.not_eq_true'] at hnull
    exact view_nullable (not_nullMember hv hnull.2 _) v
  · rfl

theorem view_text {v : Value} (hn : v ≠ .null) : view altNamesKey widest v = .text v.written := by
  unfold view
  rw [if_neg (mt kind?_null.mp hn)]
  rfl

theorem view_scalar {type : Json} (h : type ∈ scalarTypes) (hw : type ≠ widest) {v : Value}
    (hn : v ≠ .null) : view altNamesKey type v = storedScalar v := by
  simp only [scalarTypes_eq, List.mem_cons, List.not_mem_nil, or_false] at h
  rcases h with rfl | rfl | rfl | rfl | rfl | rfl | rfl | rfl | rfl
  case inr.inr.inr.inl => exact absurd rfl hw
  all_goals
    unfold view
    rw [if_neg (mt kind?_null.mp hn)]
    rfl

theorem view_fields {fields : List (FieldKey × Outline)} (hv : ∀ f ∈ fields, Outline.Valid f.2)
    (es : List (Key × Value)) :
    viewFields altNamesKey (fields.map (fieldSchema altNamesKey names)) es = fields.map fun f =>
      (.text f.1.key, view altNamesKey (f.2.schema altNamesKey names)
        ((Value.member? f.1.key es).getD .null)) := by
  induction fields with
  | nil =>
    rw [List.map_nil, viewFields]
    rfl
  | cons f fields ih =>
    have hkey : Schema.altName (fieldSchema altNamesKey names f) altNamesKey = f.1.key :=
      altName_field _ _ _ _
    have htype : (fieldSchema altNamesKey names f).get? "type" =
        some (Outline.optional f.1.nullable (f.2.schema altNamesKey names)) :=
      congrArg some (declaredType_eq (hv f List.mem_cons_self) f.1 altNamesKey)
    rw [List.map_cons, viewFields, hkey, htype, ih fun g hg => hv g (List.mem_cons_of_mem _ hg)]
    simp only [view_optional (hv f List.mem_cons_self), List.map_cons]

/-- The view of a value that an outline has room for. -/
theorem view_admits {o : Outline} {nullable : Bool} {v : Value} (h : Admits o nullable v)
    (hv : o.Valid) :
    view altNamesKey (o.schema altNamesKey names) v = o.image (·.key) storedScalar v := by
  induction h with
  | added => rw [view_null, image_null]
  | nothing => rw [view_null, image_null]
  | text hn _ =>
    rw [image_text _ _ hn]
    exact view_text hn
  | @scalar nullable type v hw h =>
    have hn : v ≠ .null := by
      rintro rfl
      cases h
    rw [image_leaf _ _ hw h]
    exact view_scalar (leafType?_mem h) hw hn
  | @list nullable below items v ws h _ ih =>
    have hitems : items.Valid := by
      cases hv with
      | array hi => exact hi
    have hn : v ≠ .null := by
      rintro rfl
      cases h
    have hview : view altNamesKey ((Outline.array below items).schema altNamesKey names) v =
        .list (ws.map (view altNamesKey
          (Outline.optional below (items.schema altNamesKey names)))) := by
      rw [Outline.schema, view, if_neg (mt kind?_null.mp hn), h]
      rfl
    rw [hview, image_items _ _ h]
    refine congrArg Value.list (List.map_congr_left fun w hw => ?_)
    rw [view_optional hitems, ih w hw hitems]
  | @struct nullable site fields es hkeys hall ih =>
    have hfields : ∀ f ∈ fields, Outline.Valid f.2 := by
      cases hv with
      | record _ _ _ h => exact h
    rw [Outline.image, fieldImages_eq, schema_fields, view,
      if_neg (mt kind?_null.mp Value.noConfusion), typeName_record, if_pos rfl, lookup_fields]
    simp only [view_fields hfields, Value.entries]
    refine congrArg Value.struct (List.map_congr_left fun f hf => ?_)
    rw [ih f hf (hfields f hf)]

end Inference
end AvroDocument
