import AvroDocument.Proofs.Obstacles
import AvroDocument.Proofs.Steps

/-!
# AvroDocument.Proofs.Walks

The nodes along which documents are walked, and how a walk fails.

* `Schema.Reaches`: the nodes that preparing and reconciling meet, each in the namespace in which it is
  resolved.
* `Value.StandsAt`, `Value.Offends`: the values inside a document with their paths, and the paths at
  which a document is refused.
* `Encoding.prepareNode_refuses`: preparing fails with a refusal, with a reference that stands for nothing,
  or with a value that the table of scalars breaks on.
* `Reconciler.valueNode_error`: so does reconciling.
* `Encoding.prepareNode_agrees`, `Reconciler.valueNode_agrees`: no other references are looked up.
-/

namespace AvroDocument

namespace Schema

/-- The nodes that a walk meets, and the namespaces in which it resolves them. Unions are walked through,
and from other nodes a walk goes on inside of what they stand for. -/
inductive Reaches (registry : Registry) (schema : Json) : String → Json → Prop
  | whole : Reaches registry schema "" schema
  | member {enclosing : String} {members : List Json} {node : Json}
      (h : Reaches registry schema enclosing (.arr members)) (hmember : node ∈ members) :
      Reaches registry schema enclosing node
  | items {enclosing inner : String} {node plain : Json} (h : Reaches registry schema enclosing node)
      (hnode : ∀ members, node ≠ .arr members)
      (hresolve : registry.resolve node enclosing = .ok (plain, inner))
      (hkind : typeName plain = "array") : Reaches registry schema inner (itemsOf plain)
  | field {enclosing inner : String} {node plain f : Json} (h : Reaches registry schema enclosing node)
      (hnode : ∀ members, node ≠ .arr members)
      (hresolve : registry.resolve node enclosing = .ok (plain, inner))
      (hkind : typeName plain = "record") (hf : f ∈ fieldsOf plain) :
      Reaches registry schema inner (typeOf f)

end Schema

namespace Value

/-- A value inside a document, and its path. -/
inductive StandsAt (document : Value) : String → Value → Prop
  | whole : StandsAt document Pointer.root document
  | item {path : String} {v w : Value} {vs : List Value} {i : Nat} (h : StandsAt document path v)
      (hitems : v.items? = some vs) (hw : vs[i]? = some w) :
      StandsAt document (Pointer.item path i) w
  | entry {path key : String} {entries : List (Key × Value)} {w : Value}
      (h : StandsAt document path (.struct entries)) (hw : member? key entries = some w) :
      StandsAt document (Pointer.child path key) w

/-- A path at which a document is refused: that of a value, that of a field which a struct lacks, or
that of an entry which no field is read from. -/
inductive Offends (document : Value) : String → EncodingFault → Prop
  | wrongType {path : String} {v : Value} (h : StandsAt document path v) :
      Offends document path .wrongType
  | outOfRange {path typeName : String} {v : Value} {n : Int} (h : StandsAt document path v) :
      Offends document path (.outOfRange n typeName)
  | wrongScale {path number scale : String} {v : Value} (h : StandsAt document path v) :
      Offends document path (.wrongScale number scale)
  | missing {path key : String} {entries : List (Key × Value)}
      (h : StandsAt document path (.struct entries)) (hmissing : member? key entries = none) :
      Offends document (Pointer.child path key) (.missingField key)
  | undeclared {path record : String} {entries : List (Key × Value)} {entry : Key × Value}
      (h : StandsAt document path (.struct entries)) (hentry : entry ∈ entries) :
      Offends document (Pointer.child path (Encoding.keyText entry.1))
        (.undeclaredField (Encoding.keyText entry.1) record)

end Value

open Schema (Reaches)
open Value (StandsAt Offends)

/-- How a walk refuses: a value, with what a node sees there, a field that a struct lacks, or an entry
which no field is read from. -/
inductive Refuses (options : Options) (document : Value) : Failure → Prop
  | value {path : String} {node : Json} {v w : Value} {f : Failure} (h : StandsAt document path v)
      (hseen : Coercion.Seen options node v w) (hrefused : Coercion.Refusal path node w f) :
      Refuses options document f
  | missing {path key : String} {entries : List (Key × Value)} {type : Json}
      (h : StandsAt document path (.struct entries)) (hmissing : Value.member? key entries = none) :
      Refuses options document
        (.encoding (Pointer.child path key) type .missing (.missingField key))
  | undeclared {path record : String} {entries : List (Key × Value)} {entry : Key × Value}
      {node : Json} (h : StandsAt document path (.struct entries)) (hentry : entry ∈ entries) :
      Refuses options document (.encoding (Pointer.child path (Encoding.keyText entry.1)) node entry.2
        (.undeclaredField (Encoding.keyText entry.1) record))

/-- What a walk refuses offends at the path that it gives. -/
theorem Refuses.offends {options : Options} {document : Value} {f : Failure}
    (h : Refuses options document f) :
    ∃ path expected actual fault,
      f = .encoding path expected actual fault ∧ Offends document path fault := by
  cases h with
  | value h _ hrefused =>
    cases hrefused with
    | wrongType => exact ⟨_, _, _, _, rfl, .wrongType h⟩
    | outOfRange => exact ⟨_, _, _, _, rfl, .outOfRange h⟩
    | wrongScale => exact ⟨_, _, _, _, rfl, .wrongScale h⟩
  | missing h hmissing => exact ⟨_, _, _, _, rfl, .missing h hmissing⟩
  | undeclared h hentry => exact ⟨_, _, _, _, rfl, .undeclared h hentry⟩

/-- How a walk fails without a refusal: at a reference that stands for nothing, or at a value inside the
document that the table of scalars breaks on. -/
inductive Stumbles (options : Options) (registry : Schema.Registry) (schema : Json)
    (document : Value) : Failure → Prop
  | unresolved {enclosing : String} {node : Json} {f : Failure}
      (hreach : Reaches registry schema enclosing node)
      (hresolve : registry.resolve node enclosing = .error f) :
      Stumbles options registry schema document f
  | breaks {enclosing inner path : String} {node plain : Json} {v : Value} {f : Failure}
      (hreach : Reaches registry schema enclosing node)
      (hresolve : registry.resolve node enclosing = .ok (plain, inner))
      (hplace : StandsAt document path v) (h : Coercion.Breaks options plain v f) :
      Stumbles options registry schema document f

/-! ## How preparing fails -/

namespace Encoding

variable {options : Options} {registry : Schema.Registry} {schema : Json} {document : Value}
  {enclosing inner path : String} {node plain : Json} {value : Value} {f : Failure}

/-- The failure of items is that of one of them. -/
theorem prepareItems_error {items : Json} {vs : List Value} {index : Nat}
    (h : prepareItems options registry inner path index items vs = .error f) :
    ∃ i v, vs[i]? = some v ∧
      prepareNode options registry inner (Pointer.item path (index + i)) items v = .error f := by
  induction vs generalizing index with
  | nil =>
    rw [prepareItems] at h
    cases h
  | cons v vs ih =>
    rw [prepareItems] at h
    cases hfirst : prepareNode options registry inner (Pointer.item path index) items v with
    | error e =>
      rw [hfirst] at h
      cases h
      exact ⟨0, v, rfl, hfirst⟩
    | ok datum =>
      rw [hfirst] at h
      cases hrest : prepareItems options registry inner path (index + 1) items vs with
      | error e =>
        simp only [hrest] at h
        cases h
        obtain ⟨i, w, hw, hprepare⟩ := ih hrest
        rw [Nat.add_assoc, Nat.add_comm 1] at hprepare
        exact ⟨i + 1, w, hw, hprepare⟩
      | ok data =>
        simp only [hrest] at h
        cases h

/-- The failure of fields is that of one of them. -/
theorem prepareFields_error {claimed : List String} {fields : List Json}
    {entries : List (Key × Value)}
    (h : prepareFields options registry inner path claimed fields entries = .error f) :
    ∃ field ∈ fields, fieldDatum options registry inner path claimed entries field = .error f := by
  induction fields with
  | nil =>
    rw [prepareFields] at h
    cases h
  | cons field fields ih =>
    rw [prepareFields_cons] at h
    cases hfirst : fieldDatum options registry inner path claimed entries field with
    | error e =>
      rw [hfirst] at h
      cases h
      exact ⟨field, List.mem_cons_self, hfirst⟩
    | ok datum =>
      rw [hfirst] at h
      cases hrest : prepareFields options registry inner path claimed fields entries with
      | error e =>
        simp only [hrest] at h
        cases h
        obtain ⟨other, hother, hfails⟩ := ih hrest
        exact ⟨other, List.mem_cons_of_mem _ hother, hfails⟩
      | ok data =>
        simp only [hrest] at h
        cases h

/-- The key that a field is read from has an entry. -/
theorem sourceKey?_some {claimed : List String} {entries : List (Key × Value)} {field : Json}
    {key : String} (h : sourceKey? options claimed entries field = some key) :
    ∃ v, Value.member? key entries = some v := by
  unfold sourceKey? at h
  simp only at h
  split at h
  · rename_i hentry
    cases h
    exact Option.isSome_iff_exists.mp hentry
  · split at h
    · rename_i hentry
      cases h
      rw [Bool.and_eq_true] at hentry
      exact Option.isSome_iff_exists.mp hentry.2
    · cases h

/-- A field fails with its value, or because a struct lacks it. -/
theorem fieldDatum_error {claimed : List String} {entries : List (Key × Value)} {field : Json}
    (h : fieldDatum options registry inner path claimed entries field = .error f) :
    (∃ key v, Value.member? key entries = some v ∧
      prepareNode options registry inner (Pointer.child path key) (Schema.typeOf field) v =
        .error f) ∨
    ∃ key, Value.member? key entries = none ∧
      f = .encoding (Pointer.child path key) (Schema.typeOf field) .missing (.missingField key) := by
  unfold fieldDatum at h
  cases hsource : sourceKey? options claimed entries field with
  | none =>
    rw [hsource] at h
    refine .inr ⟨Schema.altName field options.altNamesKey, ?_, ?_⟩
    · unfold sourceKey? at hsource
      simp only at hsource
      split at hsource
      · cases hsource
      · rename_i hentry
        simpa [hasEntry] using hentry
    · simp only [absentValue] at h
      split at h
      · cases h
      · split at h <;> cases h
        rfl
  | some key =>
    rw [hsource] at h
    obtain ⟨v, hv⟩ := sourceKey?_some hsource
    simp only [hv] at h
    exact .inl ⟨key, v, hv, h⟩

theorem checkDeclared_error {known : List String} {entries : List (Key × Value)}
    (h : checkDeclared path node known entries = .error f) :
    ∃ entry ∈ entries, ∃ record, f = .encoding (Pointer.child path (keyText entry.1)) node entry.2
      (.undeclaredField (keyText entry.1) record) := by
  induction entries with
  | nil => cases h
  | cons entry entries ih =>
    obtain ⟨key, v⟩ := entry
    unfold checkDeclared at h
    simp only at h
    split_ifs at h with hknown
    · obtain ⟨entry, hentry, hfault⟩ := ih h
      exact ⟨entry, List.mem_cons_of_mem _ hentry, hfault⟩
    · cases h
      exact ⟨(key, v), List.mem_cons_self, _, rfl⟩

/-- A plain node refuses a value or breaks on it, or it fails inside of it. -/
theorem preparePlain_error (h : preparePlain options registry inner path plain value = .error f) :
    (∃ w, Coercion.Seen options plain value w ∧ Coercion.Refusal path plain w f) ∨
    (∃ entries, Schema.typeName plain = "record" ∧ value = .struct entries ∧
      ((∃ field ∈ Schema.fieldsOf plain, fieldDatum options registry inner path
          (claimedNames options (Schema.fieldsOf plain)) entries field = .error f) ∨
        ∃ known, checkDeclared path plain known entries = .error f)) ∨
    (∃ vs i v, Schema.typeName plain = "array" ∧ value.items? = some vs ∧ vs[i]? = some v ∧
      prepareNode options registry inner (Pointer.item path i) (Schema.itemsOf plain) v =
        .error f) ∨
    Coercion.Breaks options plain value f := by
  unfold preparePlain at h
  by_cases hrecord : Schema.typeName plain = "record"
  · rw [if_pos hrecord] at h
    split at h
    · rename_i entries
      refine .inr (.inl ⟨entries, hrecord, rfl, ?_⟩)
      split at h
      · rename_i e hfields
        cases h
        exact .inl (prepareFields_error hfields)
      · split at h
        · split at h
          · rename_i e hdeclared
            cases h
            exact .inr ⟨_, hdeclared⟩
          · cases h
        · cases h
    · exact .inl ⟨_, .itself, Coercion.refuse_error h⟩
  rw [if_neg hrecord] at h
  by_cases harray : Schema.typeName plain = "array"
  · rw [if_pos harray] at h
    split at h
    · rename_i vs hvs
      split at h
      · rename_i e hitems
        cases h
        obtain ⟨i, v, hv, hprepare⟩ := prepareItems_error hitems
        rw [Nat.zero_add] at hprepare
        exact .inr (.inr (.inl ⟨vs, i, v, harray, hvs, hv, hprepare⟩))
      · cases h
    · exact .inl ⟨_, .itself, Coercion.refuse_error h⟩
  rw [if_neg harray] at h
  split at h
  · split at h
    · cases h
    · exact .inl ⟨_, .itself, Coercion.refuse_error h⟩
  · obtain hrefused | hbreaks := coerce_error h
    · exact .inl hrefused
    · exact .inr (.inr (.inr hbreaks))

/-- Preparing fails with a refusal, or it stumbles. -/
theorem prepareNode_refuses {enclosing path : String} {node : Json} {value : Value}
    (hreach : Reaches registry schema enclosing node)
    (hplace : StandsAt document path value)
    (h : prepareNode options registry enclosing path node value = .error f) :
    Refuses options document f ∨ Stumbles options registry schema document f := by
  by_cases hunion : ∃ members, node = .arr members
  · obtain ⟨members, rfl⟩ := hunion
    rw [prepareNode_union] at h
    cases hfind : members.find? fun m => !Schema.isNullMember m with
    | none =>
      rw [hfind] at h
      simp only at h
      split at h
      · cases h
      · exact .inl (.value hplace .itself (Coercion.refuse_error h))
    | some member =>
      rw [hfind] at h
      simp only at h
      split at h
      · split at h
        · cases h
        · exact .inl (.value hplace .itself (Coercion.refuse_error h))
      · have := Json.sizeOf_lt_of_find? hfind
        exact prepareNode_refuses (hreach.member (List.mem_of_find?_eq_some hfind)) hplace h
  · have hnode : ∀ members, node ≠ .arr members := fun members hm => hunion ⟨members, hm⟩
    rw [prepareNode_other hnode] at h
    cases hresolve : registry.resolve node enclosing with
    | error e =>
      rw [hresolve] at h
      cases h
      exact .inr (.unresolved hreach hresolve)
    | ok result =>
      obtain ⟨plain, inner⟩ := result
      rw [hresolve] at h
      obtain ⟨w, hseen, hf⟩ | ⟨entries, hkind, rfl, hstruct⟩ | ⟨vs, i, v, hkind, hvs, hv, hprepare⟩ |
        hbreaks := preparePlain_error h
      · exact .inl (.value hplace hseen hf)
      · obtain ⟨field, hfield, hdatum⟩ | ⟨known, hdeclared⟩ := hstruct
        · obtain ⟨key, v, hv, hprepare⟩ | ⟨key, hmissing, rfl⟩ := fieldDatum_error hdatum
          · have := Value.sizeOf_lt_of_member? hv
            have := Value.sizeOf_lt_struct entries
            exact prepareNode_refuses (hreach.field hnode hresolve hkind hfield) (hplace.entry hv)
              hprepare
          · exact .inl (.missing hplace hmissing)
        · obtain ⟨entry, hentry, record, rfl⟩ := checkDeclared_error hdeclared
          exact .inl (.undeclared hplace hentry)
      · have := List.sizeOf_lt_of_mem (List.mem_of_getElem? hv)
        have := Value.sizeOf_lt_of_items? hvs
        exact prepareNode_refuses (hreach.items hnode hresolve hkind) (hplace.item hvs hv) hprepare
      · exact .inr (.breaks hreach hresolve hplace hbreaks)
termination_by (sizeOf value, sizeOf node)

/-- Preparing fails with a refusal at a path of the document, or it stumbles. -/
theorem prepareNode_error {enclosing path : String} {node : Json} {value : Value}
    (hreach : Reaches registry schema enclosing node)
    (hplace : StandsAt document path value)
    (h : prepareNode options registry enclosing path node value = .error f) :
    (∃ path expected actual fault,
      f = .encoding path expected actual fault ∧ Offends document path fault) ∨
    Stumbles options registry schema document f :=
  (prepareNode_refuses hreach hplace h).imp_left Refuses.offends

end Encoding

/-! ## How reconciling fails -/

namespace Reconciler

variable {r : Reconciler} {schema : Json} {document : Value} {enclosing inner path : String}
  {node plain : Json} {datum : Value} {f : Failure}

theorem wrongType_error {α : Type} {typeName : String}
    (h : (Decoding.wrongType path node typeName : Except Failure α) = .error f) :
    ∃ m, f = .mismatch m := by
  cases h
  exact ⟨_, rfl⟩

/-- The failure of items is that of one of them. -/
theorem valueItems_error {items : Json} {vs : List Value} {index : Nat}
    (h : r.valueItems inner path index items vs = .error f) :
    ∃ i v, vs[i]? = some v ∧
      r.valueNode inner (Pointer.item path (index + i)) items v = .error f := by
  induction vs generalizing index with
  | nil =>
    rw [valueItems] at h
    cases h
  | cons v vs ih =>
    rw [valueItems] at h
    cases hfirst : r.valueNode inner (Pointer.item path index) items v with
    | error e =>
      rw [hfirst] at h
      cases h
      exact ⟨0, v, rfl, hfirst⟩
    | ok value =>
      rw [hfirst] at h
      cases hrest : r.valueItems inner path (index + 1) items vs with
      | error e =>
        simp only [hrest] at h
        cases h
        obtain ⟨i, w, hw, hvalue⟩ := ih hrest
        rw [Nat.add_assoc, Nat.add_comm 1] at hvalue
        exact ⟨i + 1, w, hw, hvalue⟩
      | ok values =>
        simp only [hrest] at h
        cases h

/-- The failure of fields is that of one of them. -/
theorem valueFields_error {taken entries : List (Key × Value)} {fields : List Json}
    (h : r.valueFields inner path taken fields entries = .error f) :
    ∃ field ∈ fields, r.fieldValue inner path entries field = .error f := by
  induction fields generalizing taken with
  | nil =>
    rw [valueFields] at h
    cases h
  | cons field fields ih =>
    rw [valueFields_cons] at h
    cases hfirst : r.fieldValue inner path entries field with
    | error e =>
      rw [hfirst] at h
      cases h
      exact ⟨field, List.mem_cons_self, hfirst⟩
    | ok value =>
      rw [hfirst] at h
      obtain ⟨other, hother, hfails⟩ := ih h
      exact ⟨other, List.mem_cons_of_mem _ hother, hfails⟩

/-- A field fails with its datum, or because a datum lacks it. -/
theorem fieldValue_error {entries : List (Key × Value)} {field : Json}
    (h : r.fieldValue inner path entries field = .error f) :
    (∃ source path v, Value.member? source entries = some v ∧
      r.valueNode inner path (Schema.typeOf field) v = .error f) ∨
    ∃ m, f = .mismatch m := by
  have habsent (h : Decoding.absentValue r.options path field = .error f) :
      ∃ m, f = .mismatch m := by
    simp only [Decoding.absentValue] at h
    split at h
    · cases h
    · split at h <;> cases h
      exact ⟨_, rfl⟩
  unfold fieldValue at h
  split at h
  · exact .inr (habsent h)
  · rename_i source _
    split at h
    · exact .inr (habsent h)
    · rename_i v hv
      exact .inl ⟨source, _, v, hv, h⟩

theorem checkKnown_error {known : List String} {entries : List (Key × Value)}
    (h : Decoding.checkKnown path node known entries = .error f) : ∃ m, f = .mismatch m := by
  induction entries with
  | nil => cases h
  | cons entry entries ih =>
    obtain ⟨key, v⟩ := entry
    simp only [Decoding.checkKnown] at h
    split at h
    · exact ih h
    · cases h
      exact ⟨_, rfl⟩

theorem scalarValue_error {options : Options}
    (h : Decoding.scalarValue options path node datum = .error f) :
    (∃ m, f = .mismatch m) ∨ Coercion.Breaks options node datum f := by
  unfold Decoding.scalarValue at h
  split at h
  · split at h
    · cases h
    · exact .inl (wrongType_error h)
  · split at h
    · cases h
    · exact .inl (wrongType_error h)
    · rename_i e hother hcoerce
      cases h
      obtain ⟨w, -, hrefused⟩ | hbreaks := coerce_error hcoerce
      · cases hrefused <;> exact absurd rfl (hother _ _ _ _)
      · exact .inr hbreaks

/-- A datum does not fit a plain node, or the node breaks on it, or it fails inside of it. -/
theorem valuePlain_error (h : r.valuePlain inner path plain datum = .error f) :
    (∃ m, f = .mismatch m) ∨
    (∃ entries, Schema.typeName plain = "record" ∧ datum = .struct entries ∧
      ∃ field ∈ Schema.fieldsOf plain, r.fieldValue inner path entries field = .error f) ∨
    (∃ vs i v, Schema.typeName plain = "array" ∧ datum = .list vs ∧ vs[i]? = some v ∧
      r.valueNode inner (Pointer.item path i) (Schema.itemsOf plain) v = .error f) ∨
    Coercion.Breaks r.options plain datum f := by
  unfold valuePlain at h
  by_cases hrecord : Schema.typeName plain = "record"
  · rw [if_pos hrecord] at h
    split at h
    · rename_i entries
      split at h
      · rename_i e hfields
        cases h
        exact .inr (.inl ⟨entries, hrecord, rfl, valueFields_error hfields⟩)
      · split at h
        · split at h
          · rename_i e hknown
            cases h
            exact .inl (checkKnown_error hknown)
          · cases h
        · cases h
    · exact .inl (wrongType_error h)
  rw [if_neg hrecord] at h
  by_cases harray : Schema.typeName plain = "array"
  · rw [if_pos harray] at h
    split at h
    · rename_i vs
      split at h
      · rename_i e hitems
        cases h
        obtain ⟨i, v, hv, hvalue⟩ := valueItems_error hitems
        rw [Nat.zero_add] at hvalue
        exact .inr (.inr (.inl ⟨vs, i, v, harray, rfl, hv, hvalue⟩))
      · cases h
    · exact .inl (wrongType_error h)
  rw [if_neg harray] at h
  split at h
  · split at h
    · cases h
      exact .inl ⟨_, rfl⟩
    · cases h
  · obtain hmismatch | hbreaks := scalarValue_error h
    · exact .inl hmismatch
    · exact .inr (.inr (.inr hbreaks))

/-- Reconciling fails with a mismatch, or it stumbles. -/
theorem valueNode_error {enclosing path place : String} {node : Json} {datum : Value}
    (hreach : Reaches r.registry schema enclosing node) (hplace : StandsAt document place datum)
    (h : r.valueNode enclosing path node datum = .error f) :
    (∃ m, f = .mismatch m) ∨ Stumbles r.options r.registry schema document f := by
  by_cases hunion : ∃ members, node = .arr members
  · obtain ⟨members, rfl⟩ := hunion
    rw [valueNode_union] at h
    split at h
    · split at h
      · cases h
      · exact .inl (wrongType_error h)
    · cases hfind : members.find? fun m => !Schema.isNullMember m with
      | none =>
        rw [hfind] at h
        exact .inl (wrongType_error h)
      | some member =>
        rw [hfind] at h
        have := Json.sizeOf_lt_of_find? hfind
        exact valueNode_error (hreach.member (List.mem_of_find?_eq_some hfind)) hplace h
  · have hnode : ∀ members, node ≠ .arr members := fun members hm => hunion ⟨members, hm⟩
    rw [valueNode_other hnode] at h
    cases hresolve : r.registry.resolve node enclosing with
    | error e =>
      rw [hresolve] at h
      cases h
      exact .inr (.unresolved hreach hresolve)
    | ok result =>
      obtain ⟨plain, inner⟩ := result
      rw [hresolve] at h
      obtain hm | ⟨entries, hkind, rfl, field, hfield, hvalue⟩ | ⟨vs, i, v, hkind, rfl, hv, hvalue⟩ |
        hbreaks := valuePlain_error h
      · exact .inl hm
      · obtain ⟨source, path', v, hv, hinside⟩ | hm := fieldValue_error hvalue
        · have := Value.sizeOf_lt_of_member? hv
          have := Value.sizeOf_lt_struct entries
          exact valueNode_error (hreach.field hnode hresolve hkind hfield) (hplace.entry hv) hinside
        · exact .inl hm
      · have := List.sizeOf_lt_of_mem (List.mem_of_getElem? hv)
        have := Value.sizeOf_lt_of_items? (show (Value.list vs).items? = some vs from rfl)
        exact valueNode_error (hreach.items hnode hresolve hkind) (hplace.item rfl hv) hvalue
      · exact .inr (.breaks hreach hresolve hplace hbreaks)
termination_by (sizeOf datum, sizeOf node)

end Reconciler

/-! ## The references that are looked up -/

/-- A registry that resolves what a walk meets like another one. -/
def Schema.AgreesOn (schema : Json) (registry other : Schema.Registry) : Prop :=
  ∀ enclosing node, Reaches registry schema enclosing node → (∀ members, node ≠ .arr members) →
    other.resolve node enclosing = registry.resolve node enclosing

section agree

variable {options : Options} {registry other : Schema.Registry} {schema : Json} {inner : String}

namespace Encoding

theorem prepareItems_congr {items : Json} {vs : List Value}
    (h : ∀ v ∈ vs, ∀ path, prepareNode options other inner path items v =
      prepareNode options registry inner path items v) (path : String) (index : Nat) :
    prepareItems options other inner path index items vs =
      prepareItems options registry inner path index items vs := by
  induction vs generalizing index with
  | nil => simp only [prepareItems]
  | cons v vs ih =>
    rw [prepareItems, prepareItems, h v List.mem_cons_self,
      ih (fun w hw => h w (List.mem_cons_of_mem _ hw))]

theorem prepareFields_congr {claimed : List String} {fields : List Json}
    {entries : List (Key × Value)}
    (h : ∀ field ∈ fields, ∀ key v, Value.member? key entries = some v → ∀ path,
      prepareNode options other inner path (Schema.typeOf field) v =
        prepareNode options registry inner path (Schema.typeOf field) v) (path : String) :
    prepareFields options other inner path claimed fields entries =
      prepareFields options registry inner path claimed fields entries := by
  induction fields with
  | nil => simp only [prepareFields]
  | cons field fields ih =>
    have hfield : fieldDatum options other inner path claimed entries field =
        fieldDatum options registry inner path claimed entries field := by
      unfold fieldDatum
      cases sourceKey? options claimed entries field with
      | none => rfl
      | some key =>
        simp only
        cases hmember : Value.member? key entries with
        | none => rfl
        | some v => exact h field List.mem_cons_self key v hmember _
    rw [prepareFields_cons, prepareFields_cons, hfield,
      ih fun other hother => h other (List.mem_cons_of_mem _ hother)]

theorem preparePlain_congr {plain : Json} {value : Value}
    (hfields : ∀ entries, Schema.typeName plain = "record" → value = .struct entries →
      ∀ field ∈ Schema.fieldsOf plain, ∀ key v, Value.member? key entries = some v → ∀ path,
        prepareNode options other inner path (Schema.typeOf field) v =
          prepareNode options registry inner path (Schema.typeOf field) v)
    (hitems : ∀ vs, Schema.typeName plain = "array" → value.items? = some vs → ∀ v ∈ vs, ∀ path,
      prepareNode options other inner path (Schema.itemsOf plain) v =
        prepareNode options registry inner path (Schema.itemsOf plain) v) (path : String) :
    preparePlain options other inner path plain value =
      preparePlain options registry inner path plain value := by
  simp only [preparePlain]
  by_cases hrecord : Schema.typeName plain = "record"
  · rw [if_pos hrecord, if_pos hrecord]
    cases value with
    | struct entries => simp only [prepareFields_congr (hfields entries hrecord rfl)]
    | _ => rfl
  rw [if_neg hrecord, if_neg hrecord]
  by_cases harray : Schema.typeName plain = "array"
  · rw [if_pos harray, if_pos harray]
    cases hvs : value.items? with
    | none => rfl
    | some vs => simp only [prepareItems_congr (hitems vs harray hvs)]
  · rw [if_neg harray, if_neg harray]

/-- Preparing resolves the nodes that a walk meets, and no others. -/
theorem prepareNode_agrees (hagrees : Schema.AgreesOn schema registry other)
    {enclosing : String} {node : Json} (hreach : Reaches registry schema enclosing node)
    (path : String) (value : Value) :
    prepareNode options other enclosing path node value =
      prepareNode options registry enclosing path node value := by
  by_cases hunion : ∃ members, node = .arr members
  · obtain ⟨members, rfl⟩ := hunion
    rw [prepareNode_union, prepareNode_union]
    cases hfind : members.find? fun m => !Schema.isNullMember m with
    | none => rfl
    | some member =>
      have := Json.sizeOf_lt_of_find? hfind
      have hmember := prepareNode_agrees hagrees
        (hreach.member (List.mem_of_find?_eq_some hfind)) path value
      simp only [hmember]
  · have hnode : ∀ members, node ≠ .arr members := fun members hm => hunion ⟨members, hm⟩
    rw [prepareNode_other hnode, prepareNode_other hnode, hagrees _ _ hreach hnode]
    cases hresolve : registry.resolve node enclosing with
    | error e => rfl
    | ok result =>
      obtain ⟨plain, inner⟩ := result
      refine preparePlain_congr (fun entries hkind hvalue field hfield key v hv path => ?_)
        (fun vs hkind hvs v hv path => ?_) path
      · subst hvalue
        have := Value.sizeOf_lt_of_member? hv
        have := Value.sizeOf_lt_struct entries
        exact prepareNode_agrees hagrees (hreach.field hnode hresolve hkind hfield) path v
      · have := List.sizeOf_lt_of_mem hv
        have := Value.sizeOf_lt_of_items? hvs
        exact prepareNode_agrees hagrees (hreach.items hnode hresolve hkind) path v
termination_by (sizeOf value, sizeOf node)

end Encoding

namespace Reconciler

variable {r : Reconciler}

theorem valueItems_congr {items : Json} {vs : List Value}
    (h : ∀ v ∈ vs, ∀ path, { r with registry := other }.valueNode inner path items v =
      r.valueNode inner path items v) (path : String) (index : Nat) :
    { r with registry := other }.valueItems inner path index items vs =
      r.valueItems inner path index items vs := by
  induction vs generalizing index with
  | nil => simp only [valueItems]
  | cons v vs ih =>
    rw [valueItems, valueItems, h v List.mem_cons_self,
      ih (fun w hw => h w (List.mem_cons_of_mem _ hw))]

theorem valueFields_congr {fields : List Json} {entries : List (Key × Value)}
    (h : ∀ field ∈ fields, ∀ source v, Value.member? source entries = some v → ∀ path,
      { r with registry := other }.valueNode inner path (Schema.typeOf field) v =
        r.valueNode inner path (Schema.typeOf field) v) (path : String)
    (taken : List (Key × Value)) :
    { r with registry := other }.valueFields inner path taken fields entries =
      r.valueFields inner path taken fields entries := by
  induction fields generalizing taken with
  | nil => simp only [valueFields]
  | cons field fields ih =>
    have hfield : { r with registry := other }.fieldValue inner path entries field =
        r.fieldValue inner path entries field := by
      unfold fieldValue
      cases Decoding.sourceName? entries field with
      | none => rfl
      | some source =>
        simp only
        cases hmember : Value.member? source entries with
        | none => rfl
        | some v => exact h field List.mem_cons_self source v hmember _
    rw [valueFields_cons, valueFields_cons, hfield]
    cases r.fieldValue inner path entries field with
    | error e => rfl
    | ok value => exact ih (fun other hother => h other (List.mem_cons_of_mem _ hother)) _

theorem valuePlain_congr {plain : Json} {datum : Value}
    (hfields : ∀ entries, Schema.typeName plain = "record" → datum = .struct entries →
      ∀ field ∈ Schema.fieldsOf plain, ∀ source v, Value.member? source entries = some v → ∀ path,
        { r with registry := other }.valueNode inner path (Schema.typeOf field) v =
          r.valueNode inner path (Schema.typeOf field) v)
    (hitems : ∀ vs, Schema.typeName plain = "array" → datum = .list vs → ∀ v ∈ vs, ∀ path,
      { r with registry := other }.valueNode inner path (Schema.itemsOf plain) v =
        r.valueNode inner path (Schema.itemsOf plain) v) (path : String) :
    { r with registry := other }.valuePlain inner path plain datum =
      r.valuePlain inner path plain datum := by
  simp only [valuePlain]
  by_cases hrecord : Schema.typeName plain = "record"
  · rw [if_pos hrecord, if_pos hrecord]
    cases datum with
    | struct entries => simp only [valueFields_congr (hfields entries hrecord rfl)]
    | _ => rfl
  rw [if_neg hrecord, if_neg hrecord]
  by_cases harray : Schema.typeName plain = "array"
  · rw [if_pos harray, if_pos harray]
    cases datum with
    | list vs => simp only [valueItems_congr (hitems vs harray rfl)]
    | _ => rfl
  · rw [if_neg harray, if_neg harray]

/-- Reconciling resolves the nodes that a walk meets, and no others. -/
theorem valueNode_agrees (hagrees : Schema.AgreesOn schema r.registry other)
    {enclosing : String} {node : Json} (hreach : Reaches r.registry schema enclosing node)
    (path : String) (datum : Value) :
    { r with registry := other }.valueNode enclosing path node datum =
      r.valueNode enclosing path node datum := by
  by_cases hunion : ∃ members, node = .arr members
  · obtain ⟨members, rfl⟩ := hunion
    rw [valueNode_union, valueNode_union]
    cases hfind : members.find? fun m => !Schema.isNullMember m with
    | none => rfl
    | some member =>
      have := Json.sizeOf_lt_of_find? hfind
      have hmember := valueNode_agrees hagrees
        (hreach.member (List.mem_of_find?_eq_some hfind)) path datum
      simp only [hmember]
  · have hnode : ∀ members, node ≠ .arr members := fun members hm => hunion ⟨members, hm⟩
    rw [valueNode_other hnode, valueNode_other hnode]
    simp only [hagrees _ _ hreach hnode]
    cases hresolve : r.registry.resolve node enclosing with
    | error e => rfl
    | ok result =>
      obtain ⟨plain, inner⟩ := result
      refine valuePlain_congr (fun entries hkind hdatum field hfield source v hv path => ?_)
        (fun vs hkind hdatum v hv path => ?_) path
      · subst hdatum
        have := Value.sizeOf_lt_of_member? hv
        have := Value.sizeOf_lt_struct entries
        exact valueNode_agrees hagrees (hreach.field hnode hresolve hkind hfield) path v
      · subst hdatum
        have := List.sizeOf_lt_of_mem hv
        have := Value.sizeOf_lt_of_items? (show (Value.list vs).items? = some vs from rfl)
        exact valueNode_agrees hagrees (hreach.items hnode hresolve hkind) path v
termination_by (sizeOf datum, sizeOf node)

end Reconciler

end agree

end AvroDocument
