import AvroDocument.Proofs.References

/-!
# AvroDocument.Proofs.Nullability

Which types admit null, for those who ask the schema, for those who write and for those who read.

* `Schema.Reaches.within`: a walk meets nodes that are somewhere in the schema.
* `Encoding.prepareNode_null_iff`, `Reconciler.valueNode_null_iff`: null is prepared and reconciled at
  types that admit it and at annotated nulls, and at no others.
* `nullable_agrees`: a type that is no annotated null admits null for all or for none; an annotated null
  takes one, but fields of that type cannot be left out.
-/

namespace AvroDocument

open Schema (Reaches Within Sound Hereditary)

namespace Schema

/-- Null with annotations, as a type of its own. -/
def isAnnotatedNull (type : Json) : Bool := type.isObj && typeName type = "null"

/-- A property of every node. -/
theorem hereditary_true : Hereditary fun _ => True where
  member _ _ := trivial
  items _ _ _ := trivial
  values _ _ _ := trivial
  field _ _ _ := trivial

variable {P : Json → Prop} {schema node : Json} {decls : List (String × Json)} {top : Layout}
  {ns : String}

/-- A walk meets nodes that are somewhere in the schema. -/
theorem Reaches.within (h : Reaches (Registry.ofSchema schema) schema ns node)
    (hs : Sound P schema top decls) : ∃ l, Within P schema decls ns node l := by
  induction h with
  | whole => exact ⟨top, hs.within⟩
  | member _ hmember ih =>
    obtain ⟨l, hl⟩ := ih
    obtain ⟨pieces, rfl, -, -, hpieces⟩ := hl.members hs.hereditary
    obtain ⟨p, hp, rfl⟩ := List.mem_map.mp hmember
    exact ⟨_, (hpieces p hp).1⟩
  | items _ hnode hresolve hkind ih =>
    obtain ⟨l, hl⟩ := ih
    obtain ⟨plain, inner, l', hresolve', hl', hplain, -⟩ := hl.resolve hs hnode
    cases hresolve.symm.trans hresolve'
    cases hl'.form hs.hereditary hplain with
    | array _ hitems => exact ⟨_, hitems⟩
    | primitive hother => exact absurd hkind (not_kind hother rfl)
    | record hother => exact absurd (hkind.symm.trans hother) (by decide)
  | field _ hnode hresolve hkind hf ih =>
    obtain ⟨l, hl⟩ := ih
    obtain ⟨plain, inner, l', hresolve', hl', hplain, -⟩ := hl.resolve hs hnode
    cases hresolve.symm.trans hresolve'
    cases hl'.form hs.hereditary hplain with
    | record _ hfields _ _ hpieces =>
      rw [hfields] at hf
      obtain ⟨p, hp, rfl⟩ := List.mem_map.mp hf
      exact ⟨_, hpieces p hp⟩
    | primitive hother => exact absurd hkind (not_kind hother rfl)
    | array hother => exact absurd (hkind.symm.trans hother) (by decide)

/-- What a node within a schema stands for is of a kind that can be read, and it is null when the node
is null itself, bare or annotated. -/
theorem Within.stands {l : Layout} (h : Within P schema decls ns node l)
    (hs : Sound P schema top decls) (hnode : ∀ members, node ≠ .arr members) :
    ∃ plain inner, (Registry.ofSchema schema).resolve node ns = .ok (plain, inner) ∧
      opaqueKinds.contains (typeName plain) = false ∧
      decide (typeName plain = "null") = (isNullable node || isAnnotatedNull node) := by
  obtain ⟨plain, inner, l', hresolve, hl, hplain, -, hsame⟩ := h.resolve hs hnode
  refine ⟨plain, inner, hresolve, ?_, ?_⟩
  · cases hl.form hs.hereditary hplain with
    | primitive hkind => exact Compatibility.opaqueKinds_primitive hkind
    | array hkind | record hkind => rw [hkind]; decide
  · obtain ⟨rfl, -⟩ | hrecord := hsame
    · cases plain with
      | arr members => exact absurd rfl (hnode members)
      | obj ms => rfl
      | str name => exact (Bool.or_false _).symm
      | null | bool | int | float | decimal => rfl
    · have hother : typeName plain ≠ "null" := by
        rw [hrecord]
        decide
      cases node with
      | arr members => exact absurd rfl (hnode members)
      | str name =>
        have hname : name ≠ "null" := by
          rintro rfl
          cases hresolve.symm.trans (rfl : Registry.resolve _ (.str "null") ns = .ok (.str "null", ns))
          exact hother rfl
        simp [isNullable, isAnnotatedNull, Json.isObj, hother, hname]
      | obj | null | bool | int | float | decimal =>
        cases hresolve
        rfl

/-- The registry of an accepted schema, and that its types are all supported. -/
theorem sound_of_ofSchema {options : Options} {e : Encoder}
    (he : Encoder.ofSchema options schema = .ok e) :
    e.options = options ∧ e.registry = Registry.ofSchema schema ∧
      ∃ decls, Sound (fun _ => True) schema e.layout decls := by
  obtain ⟨layout, -, hlayout, hregular, rfl⟩ := Encoder.ofSchema_parts he
  exact ⟨rfl, rfl, sound_of_layout hereditary_true trivial hlayout hregular⟩

end Schema

/-! ## An explicit null -/

section explicit

variable {options : Options} {registry : Schema.Registry} {inner ns path : String}
  {plain node schema : Json} {r : Reconciler}

theorem Encoding.preparePlain_null :
    preparePlain options registry inner path plain .null =
      if Schema.typeName plain = "null" then .ok .null else Coercion.refuse path plain .null := by
  unfold preparePlain
  split
  · rename_i hkind
    rw [if_neg (by rw [hkind]; decide)]
  · split
    · rename_i hkind
      rw [if_neg (by rw [hkind]; decide)]
      rfl
    · rfl

theorem Reconciler.valuePlain_null (r : Reconciler) (inner path : String)
    (hknown : Schema.opaqueKinds.contains (Schema.typeName plain) = false) :
    ∃ actual, r.valuePlain inner path plain .null =
      if Schema.typeName plain = "null" then .ok .null
      else Decoding.wrongType path plain actual := by
  unfold valuePlain
  split
  · rename_i hkind
    have hother : Schema.typeName plain ≠ "null" := by
      rw [hkind]
      decide
    simp only [if_neg hother]
    exact ⟨_, rfl⟩
  · split
    · rename_i hkind
      have hother : Schema.typeName plain ≠ "null" := by
        rw [hkind]
        decide
      simp only [if_neg hother]
      exact ⟨_, rfl⟩
    · rw [hknown, if_neg Bool.false_ne_true]
      exact ⟨_, rfl⟩

/-- Null is prepared at a union that admits it, and refused at others. -/
theorem Encoding.prepareNode_union_null {members : List Json} :
    prepareNode options registry ns path (.arr members) .null =
      if Schema.isNullable (.arr members) then .ok .null
      else Coercion.refuse path (.arr members) .null := by
  rw [prepareNode_union]
  cases members.find? fun m => !Schema.isNullMember m <;> rfl

theorem Reconciler.valueNode_union_null {members : List Json} :
    r.valueNode ns path (.arr members) .null =
      if Schema.isNullable (.arr members) then .ok .null
      else Decoding.wrongType path (.arr members) "null" := by
  rw [valueNode_union]
  rfl

/-- Null is prepared at types that admit it and at annotated nulls, and refused at others. -/
theorem Encoding.prepareNode_null_iff {decls : List (String × Json)} {top : Layout}
    (options : Options) (path : String) (hs : Sound (fun _ => True) schema top decls)
    (hreach : Reaches (Schema.Registry.ofSchema schema) schema ns node) :
    ∃ shown, prepareNode options (Schema.Registry.ofSchema schema) ns path node .null =
      if Schema.isNullable node || Schema.isAnnotatedNull node then .ok .null
      else .error (.encoding path shown .null .wrongType) := by
  by_cases hunion : ∃ members, node = .arr members
  · obtain ⟨members, rfl⟩ := hunion
    rw [prepareNode_union_null, show Schema.isAnnotatedNull (.arr members) = false from rfl,
      Bool.or_false]
    exact ⟨_, rfl⟩
  · have hnode : ∀ members, node ≠ .arr members := fun members hm => hunion ⟨members, hm⟩
    obtain ⟨l, hl⟩ := hreach.within hs
    obtain ⟨plain, inner, hresolve, -, hnull⟩ := hl.stands hs hnode
    rw [prepareNode_other hnode, hresolve, ← hnull]
    simp only [preparePlain_null, decide_eq_true_eq]
    exact ⟨_, rfl⟩

/-- Null is reconciled where it is prepared, and does not fit elsewhere. -/
theorem Reconciler.valueNode_null_iff {decls : List (String × Json)} {top : Layout}
    (path : String) (hs : Sound (fun _ => True) schema top decls) (hr : r.registry = Schema.Registry.ofSchema schema)
    (hreach : Reaches (Schema.Registry.ofSchema schema) schema ns node) :
    ∃ shown actual, r.valueNode ns path node .null =
      if Schema.isNullable node || Schema.isAnnotatedNull node then .ok .null
      else .error (.mismatch ⟨path, shown, .wrongType actual⟩) := by
  by_cases hunion : ∃ members, node = .arr members
  · obtain ⟨members, rfl⟩ := hunion
    rw [valueNode_union_null, show Schema.isAnnotatedNull (.arr members) = false from rfl,
      Bool.or_false]
    exact ⟨_, _, rfl⟩
  · have hnode : ∀ members, node ≠ .arr members := fun members hm => hunion ⟨members, hm⟩
    obtain ⟨l, hl⟩ := hreach.within hs
    obtain ⟨plain, inner, hresolve, hknown, hnull⟩ := hl.stands hs hnode
    obtain ⟨actual, hvalue⟩ := valuePlain_null r inner path hknown
    rw [valueNode_other hnode, hr, hresolve, ← hnull]
    simp only [hvalue, decide_eq_true_eq]
    exact ⟨_, _, rfl⟩

end explicit

/-! ## A field that is left out -/

section absent

variable {options : Options} {field : Json} {entries : List (Key × Value)} {claimed : List String}

/-- A field without a default may be left out of a document when its type admits null, and is null
then. -/
theorem Encoding.fieldDatum_absent (registry : Schema.Registry) (inner path : String)
    (hdefault : field.get? "default" = none)
    (habsent : sourceKey? options claimed entries field = none) :
    fieldDatum options registry inner path claimed entries field =
      if Schema.isNullable (Schema.typeOf field) then .ok .null
      else
        let key := Schema.altName field options.altNamesKey
        .error (.encoding (Pointer.child path key) (Schema.typeOf field) .missing
          (.missingField key)) := by
  rw [fieldDatum, habsent]
  simp only [absentValue, hdefault]

/-- So may a field of a payload. -/
theorem Reconciler.fieldValue_absent (r : Reconciler) (inner path : String)
    (hdefault : field.get? "default" = none)
    (habsent : Decoding.sourceName? entries field = none) :
    r.fieldValue inner path entries field =
      if Schema.isNullable (Schema.typeOf field) then .ok .null
      else
        let key := Schema.altName field r.options.altNamesKey
        .error (.mismatch ⟨Pointer.child path key, Schema.typeOf field, .missingField key⟩) := by
  rw [fieldValue, habsent]
  simp only [Decoding.absentValue, hdefault, Decoding.mismatch]

end absent

/-- A decoder with a schema reconciles with it. -/
theorem Decoder.reconcilerFor_parts {options : Options} {schema : Json} {d : Decoder}
    (hd : Decoder.ofSchema options (some schema) = .ok d) (header : Container.Header) :
    (d.reconcilerFor header).registry = Schema.Registry.ofSchema schema ∧
      (d.reconcilerFor header).options = options := by
  obtain ⟨layout, -, -, -, rfl⟩ := Decoder.ofSchema_parts hd
  exact ⟨rfl, rfl⟩

/-! ## All of them agree -/

section agree

variable {options options' : Options} {schema field : Json} {e : Encoder} {d : Decoder} {inner : String}

/-- A field without a default of an accepted schema, whose type is no annotated null. The type is
nullable, the encoder takes an explicit null, the decoder takes one, a document may lack the field, and a
payload may lack it: all of these or none, and then each is refused at the place of the null or of the
field. An annotated null is not nullable and cannot be left out, but is taken where it is written out. -/
theorem nullable_agrees (he : Encoder.ofSchema options schema = .ok e)
    (hd : Decoder.ofSchema options' (some schema) = .ok d)
    (hreach : Reaches e.registry schema inner (Schema.typeOf field))
    (hdefault : field.get? "default" = none) (header : Container.Header) (path : String)
    {claimed : List String} {entries payload : List (Key × Value)}
    (hkey : Encoding.sourceKey? options claimed entries field = none)
    (hname : Decoding.sourceName? payload field = none) :
    let type := Schema.typeOf field
    let explicit := Encoding.prepareNode e.options e.registry inner path type .null
    let read := (d.reconcilerFor header).valueNode inner path type .null
    let left := Encoding.fieldDatum e.options e.registry inner path claimed entries field
    let unwritten := (d.reconcilerFor header).fieldValue inner path payload field
    (Schema.isAnnotatedNull type = false →
      [Schema.isNullable type = true, explicit = .ok .null, read = .ok .null, left = .ok .null,
        unwritten = .ok .null].TFAE) ∧
    (Schema.isAnnotatedNull type = true → Schema.isNullable type = false ∧
      explicit = .ok .null ∧ read = .ok .null) ∧
    (explicit ≠ .ok .null → ∃ shown, explicit = .error (.encoding path shown .null .wrongType)) ∧
    (read ≠ .ok .null → ∃ shown actual,
      read = .error (.mismatch ⟨path, shown, .wrongType actual⟩)) ∧
    (Schema.isNullable type = false →
      (let key := Schema.altName field options.altNamesKey
       left = .error (.encoding (Pointer.child path key) type .missing (.missingField key))) ∧
      (let key := Schema.altName field options'.altNamesKey
       unwritten = .error (.mismatch ⟨Pointer.child path key, type, .missingField key⟩))) := by
  intro type explicit read left unwritten
  obtain ⟨rfl, hregistry, decls, hs⟩ := Schema.sound_of_ofSchema he
  obtain ⟨hregistry', hoptions⟩ := Decoder.reconcilerFor_parts hd header
  rw [hregistry] at hreach
  obtain ⟨shown, hexplicit⟩ := Encoding.prepareNode_null_iff e.options path hs hreach
  obtain ⟨shown', actual, hread⟩ := Reconciler.valueNode_null_iff path hs hregistry' hreach
  have hleft := Encoding.fieldDatum_absent e.registry inner path hdefault hkey
  have hunwritten := Reconciler.fieldValue_absent (d.reconcilerFor header) inner path hdefault hname
  rw [← hregistry] at hexplicit
  rw [hoptions] at hunwritten
  change explicit = _ at hexplicit
  change read = _ at hread
  change left = _ at hleft
  change unwritten = _ at hunwritten
  rw [hexplicit, hread, hleft, hunwritten]
  have hannotated (h : Schema.isAnnotatedNull type = true) : Schema.isNullable type = false := by
    cases htype : type with
    | obj ms => rfl
    | _ =>
      rw [htype] at h
      cases h
  have htaken (b : Bool) (f : Failure) :
      (if b = true then Except.ok Value.null else .error f) = .ok .null ↔ b = true := by
    cases b <;> simp
  refine ⟨fun h => ?_, fun h => ⟨hannotated h, ?_, ?_⟩, fun h => ⟨shown, ?_⟩,
    fun h => ⟨shown', actual, ?_⟩, fun h => ⟨?_, ?_⟩⟩
  · rw [h, Bool.or_false]
    refine List.tfae_of_forall (Schema.isNullable type = true) _ fun a ha => ?_
    simp only [List.mem_cons, List.not_mem_nil, or_false] at ha
    obtain rfl | rfl | rfl | rfl | rfl := ha
    · exact Iff.rfl
    all_goals exact htaken _ _
  · rw [h, Bool.or_true, if_pos rfl]
  · rw [h, Bool.or_true, if_pos rfl]
  · exact if_neg fun hnull => h ((htaken _ _).mpr hnull)
  · exact if_neg fun hnull => h ((htaken _ _).mpr hnull)
  · rw [h, if_neg Bool.false_ne_true]
  · rw [h, if_neg Bool.false_ne_true]

/-- An annotated null that is written out and read, in a field that can be left out neither of a document
nor of a payload. -/
theorem nullable_agrees_annotated :
    let type : Json := .obj [("type", .str "null")]
    let field : Json := .obj [("name", .str "x"), ("type", type)]
    let schema : Json := .obj [("type", .str "record"), ("name", .str "R"), ("fields", .arr [field])]
    let options := Options.standard "R" "" (List.replicate 16 7)
    ∃ e d, Encoder.ofSchema options schema = .ok e ∧
      Decoder.ofSchema options (some schema) = .ok d ∧ Schema.isNullable type = false ∧
      e.prepare (.struct [(.text "x", .null)]) = .ok (.struct [(.text "x", .null)]) ∧
      d.decodeRecord [] = .ok (.struct [(.text "x", .null)]) ∧
      e.prepare (.struct []) = .error (.encoding "#/x" type .missing (.missingField "x")) := by
  intro type field schema options
  let layout : Layout := .record "R" [("x", none, .primitive .null none)]
  have hlayout : Layout.ofSchema schema = .ok layout := by decide +kernel
  have hcheck : Schema.check schema = .ok (Schema.Registry.ofSchema schema) := by decide +kernel
  refine ⟨⟨schema, Schema.Registry.ofSchema schema, layout, options⟩,
    ⟨some (schema, Schema.Registry.ofSchema schema, layout), options⟩, ?_, ?_, rfl, ?_, ?_, ?_⟩
  · exact Encoder.ofSchema_eq _ hcheck hlayout
  · exact Decoder.ofSchema_eq _ hcheck hlayout
  · cbv
  · cbv
  · cbv

end agree

end AvroDocument
