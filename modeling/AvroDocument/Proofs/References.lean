import AvroDocument.Proofs.Inlining
import AvroDocument.Proofs.ProjectedResults
import AvroDocument.Proofs.Walks

/-!
# AvroDocument.Proofs.References

What references stand for, for the binary library and for those who walk along a schema.

* `Schema.LaidOut`: the nodes of a schema, with the namespaces and the layouts that the library gives
  them.
* `Schema.Settled`: a walk meets nodes only where the library has them, and resolves each reference to
  the declaration whose layout the library uses for it.
* `Schema.settled_of_ofSchema`: a schema that is accepted is settled.
* `references_settled`: preparing and reconciling never fail for the schema, and they are the same when
  references are looked up among the library's declarations.
-/

namespace AvroDocument
namespace Schema

/-! ## Where the library has its layouts -/

/-- A node of a schema, the namespace in which the library takes it, and the layout that it makes of
it. Inside a record it is in the namespace of the record's full name. -/
inductive LaidOut (schema : Json) (top : Layout) : String → Json → Layout → Prop
  | whole : LaidOut schema top "" schema top
  | member {ns : String} {members : List Json} {layouts : List Layout} {node : Json} {l : Layout}
      (h : LaidOut schema top ns (.arr members) (.union layouts))
      (hmember : (node, l) ∈ members.zip layouts) : LaidOut schema top ns node l
  | items {ns : String} {node : Json} {l : Layout} (h : LaidOut schema top ns node (.array l)) :
      LaidOut schema top ns (itemsOf node) l
  | values {ns : String} {node : Json} {l : Layout} (h : LaidOut schema top ns node (.map l)) :
      LaidOut schema top ns (valuesOf node) l
  | field {ns full : String} {node f : Json} {fields : List (String × Option Json × Layout)}
      {g : String × Option Json × Layout} (h : LaidOut schema top ns node (.record full fields))
      (hf : (f, g) ∈ (fieldsOf node).zip fields) :
      LaidOut schema top (splitName full).1 (typeOf f) g.2.2

section laidOut

variable {schema node : Json} {top layout : Layout} {decls ds : List (String × Json)}
  {names : List String} {ns : String} {ms : List (String × Json)}

theorem valuesOf_eq {values : Json} (h : lookup? "values" ms = some values) :
    valuesOf (.obj ms) = values := by
  simp [valuesOf, Json.getD, Json.get?, Json.members, h]

theorem mem_zip_pieces {α β : Type} {f : Piece → α} {g : Piece → β} {pieces : List Piece} {z : α × β} :
    z ∈ (pieces.map f).zip (pieces.map g) ↔ ∃ p ∈ pieces, z = (f p, g p) := by
  rw [List.zip_map', List.mem_map]
  exact exists_congr fun p => and_congr_right fun _ => eq_comm

/-- What the library lays out is described, and declares nothing but what the schema does. -/
theorem LaidOut.described (h : LaidOut schema top ns node layout) (ha : Accepted schema top decls) :
    ∃ ds, ds ⊆ decls ∧ Describes (decls.map (·.1)) ns node layout ds := by
  induction h with
  | whole => exact ⟨decls, List.Subset.refl _, ha.describes⟩
  | member _ hmember ih =>
    obtain ⟨ds, hsub, hd⟩ := ih
    cases hd with
    | union hpieces =>
      obtain ⟨p, hp, he⟩ := mem_zip_pieces.mp hmember
      cases he
      exact ⟨p.declared, fun d hd => hsub (List.mem_flatMap.mpr ⟨p, hp, hd⟩), hpieces p hp⟩
  | items _ ih =>
    obtain ⟨ds, hsub, hd⟩ := ih
    cases hd with
    | array _ hitems hd => exact ⟨ds, hsub, itemsOf_eq hitems ▸ hd⟩
  | values _ ih =>
    obtain ⟨ds, hsub, hd⟩ := ih
    cases hd with
    | map _ hvalues hd => exact ⟨ds, hsub, valuesOf_eq hvalues ▸ hd⟩
  | field _ hf ih =>
    obtain ⟨ds, hsub, hd⟩ := ih
    cases hd with
    | record _ hfields _ hpieces =>
      rw [hfields] at hf
      obtain ⟨p, hp, he⟩ := mem_zip_pieces.mp hf
      cases he
      exact ⟨p.declared,
        fun d hd => hsub (List.mem_cons_of_mem _ (List.mem_flatMap.mpr ⟨p, hp, hd⟩)), hpieces p hp⟩

/-- Every named layout inside of a node that is laid out is that of a declaration, where this stands. -/
theorem Describes.laidOut (h : Describes names ns node layout ds)
    (hl : LaidOut schema top ns node layout) : ∀ d ∈ layout.declarations,
      ∃ ms outer, isNamed (.obj ms) = true ∧ fullName (.obj ms) outer = d.1 ∧
        LaidOut schema top outer (.obj ms) d.2 := by
  induction h with
  | name | reference | annotated => exact fun _ hd => nomatch hd
  | @enum enclosing ms symbols hkind =>
    intro d hd
    obtain rfl := List.mem_singleton.mp hd
    exact ⟨ms, enclosing, by simp [isNamed, Json.isObj, hkind, namedKinds], rfl, hl⟩
  | @fixed enclosing ms size decimal hkind =>
    intro d hd
    obtain rfl := List.mem_singleton.mp hd
    exact ⟨ms, enclosing, by simp [isNamed, Json.isObj, hkind, namedKinds], rfl, hl⟩
  | array _ hitems _ ih => exact ih (itemsOf_eq hitems ▸ hl.items)
  | map _ hvalues _ ih => exact ih (valuesOf_eq hvalues ▸ hl.values)
  | union _ ih =>
    intro d hd
    rw [Layout.declarations, memberDeclarations_map] at hd
    obtain ⟨p, hp, hd⟩ := List.mem_flatMap.mp hd
    exact ih p hp (hl.member (mem_zip_pieces.mpr ⟨p, hp, rfl⟩)) d hd
  | @record enclosing ms pieces hkind hfields _ _ ih =>
    intro d hd
    rw [Layout.declarations, fieldDeclarations_map] at hd
    obtain rfl | hd := List.mem_cons.mp hd
    · exact ⟨ms, enclosing, by simp [isNamed, Json.isObj, hkind, namedKinds], rfl, hl⟩
    · obtain ⟨p, hp, hd⟩ := List.mem_flatMap.mp hd
      refine ih p hp (hl.field (f := p.node) (g := p.field) ?_) d hd
      rw [hfields]
      exact mem_zip_pieces.mpr ⟨p, hp, rfl⟩

/-- A named node is declared under its full name. -/
theorem LaidOut.declared (h : LaidOut schema top ns (.obj ms) layout)
    (ha : Accepted schema top decls) (hnamed : isNamed (.obj ms) = true) :
    (fullName (.obj ms) ns, .obj ms) ∈ decls := by
  obtain ⟨ds, hsub, hd⟩ := h.described ha
  cases hd with
  | annotated hp =>
    rw [isNamed, not_named hp, Bool.and_false] at hnamed
    cases hnamed
  | array hkind | map hkind =>
    simp [isNamed, Json.isObj, hkind, namedKinds] at hnamed
  | enum | fixed => exact hsub (List.mem_singleton_self _)
  | record => exact hsub List.mem_cons_self

end laidOut

/-! ## What a walk resolves -/

/-- What a reference stands for. The registry resolves it to a node which the library lays out, in the
one place that declares the full name under which the library looks the reference up. -/
structure Refers (schema : Json) (top : Layout) (registry : Registry) (ns name : String)
    (declared : Json) : Prop where
  read : LaidOut schema top ns (.str name) (.reference (referenceName name ns))
  resolve : registry.resolve (.str name) ns =
    .ok (declared, (splitName (referenceName name ns)).1)
  layout : ∃ outer l, LaidOut schema top outer declared l ∧ isNamed declared = true ∧
    fullName declared outer = referenceName name ns ∧
    lookup? (referenceName name ns) top.declarations = some l
  unique : ∀ outer node l, LaidOut schema top outer node l → isNamed node = true →
    fullName node outer = referenceName name ns → node = declared

/-- A walk along a schema and the library agree on it: the walk meets nodes only in namespaces in which
the library takes them, every reference that it meets means the same to both, and the fields of the
records that it meets have names. -/
structure Settled (schema : Json) (top : Layout) (registry : Registry) : Prop where
  laidOut : ∀ ns node, Reaches registry schema ns node → ∃ l, LaidOut schema top ns node l
  refers : ∀ ns name, Reaches registry schema ns (.str name) →
    primitiveNames.contains name = false → ∃ declared, Refers schema top registry ns name declared
  named : ∀ ns node plain inner, Reaches registry schema ns node →
    registry.resolve node ns = .ok (plain, inner) → typeName plain = "record" →
    ∀ f ∈ fieldsOf plain, f.has "name" = true

/-- A node that is neither a union nor a reference. -/
def IsType (node : Json) : Prop :=
  node.isObj = true ∨ (Primitive.ofName? (typeName node)).isSome = true

section settled

variable {schema node plain : Json} {top l : Layout} {decls : List (String × Json)}
  {ns inner name : String}

theorem not_primitive (h : primitiveNames.contains name = false) :
    Primitive.ofName? name = none := by
  rw [← Option.not_isSome_iff_eq_none, ← isPrimitive_iff, h]
  exact Bool.false_ne_true

/-- The library knows what the registry resolves a reference to. -/
theorem LaidOut.refers (h : LaidOut schema top ns (.str name) l) (ha : Accepted schema top decls)
    (hname : primitiveNames.contains name = false) :
    ∃ declared, Refers schema top (Registry.ofSchema schema) ns name declared := by
  have hp := not_primitive hname
  obtain ⟨ds, -, hd⟩ := h.described ha
  cases hd with
  | name hother => cases hp.symm.trans hother
  | reference _ hmem =>
    rw [← ha.describes.names_eq] at hmem
    obtain ⟨d, hd, hfull⟩ := List.mem_map.mp hmem
    obtain ⟨ms, outer, hnamed, hname, hl⟩ := ha.describes.laidOut .whole d hd
    rw [hfull] at hname
    have hdecl := hl.declared ha hnamed
    rw [hname] at hdecl
    have hdistinct : (top.declarations.map (·.1)).Nodup := by
      rw [ha.describes.names_eq]
      exact ha.distinct
    have hns : namespaceOf (.obj ms) (splitName (referenceName name ns)).1 =
        (splitName (referenceName name ns)).1 := by
      rw [← hname]
      exact namespaceOf_namespaceOf ms outer
    refine ⟨.obj ms, h, ?_, ⟨outer, d.2, hl, hnamed, hname, ?_⟩, ?_⟩
    · rw [resolve_reference hp (ha.lookup_registry hdecl), hns]
    · rw [← hfull]
      exact lookup?_of_mem hdistinct hd
    · intro outer' node' l' hl' hnamed' hname'
      cases node' with
      | obj ms' =>
        have hdecl' := hl'.declared ha hnamed'
        rw [hname'] at hdecl'
        exact ha.unique hdecl' hdecl
      | _ => cases hnamed'

/-- What a node that is no union is resolved to is laid out as well, and it is no reference. -/
theorem LaidOut.resolve (h : LaidOut schema top ns node l) (ha : Accepted schema top decls)
    (hnode : ∀ members, node ≠ .arr members) :
    ∃ plain outer l', (Registry.ofSchema schema).resolve node ns = .ok (plain, innerOf plain outer) ∧
      LaidOut schema top outer plain l' ∧ IsType plain := by
  cases node with
  | arr members => exact absurd rfl (hnode members)
  | obj ms => exact ⟨.obj ms, ns, l, rfl, h, .inl rfl⟩
  | str name =>
    cases hname : primitiveNames.contains name with
    | true =>
      refine ⟨.str name, ns, l, ?_, h, .inr (isPrimitive_iff.mp hname)⟩
      simp only [Registry.resolve, hname, if_true]
      rfl
    | false =>
      obtain ⟨declared, hrefers⟩ := h.refers ha hname
      obtain ⟨outer, l', hl, hnamed, hfull, -⟩ := hrefers.layout
      refine ⟨declared, outer, l', ?_, hl, .inl ?_⟩
      · rw [hrefers.resolve, innerOf, if_pos hnamed, namespaceOf, hfull]
      · rw [isNamed, Bool.and_eq_true] at hnamed
        exact hnamed.1
  | null | bool | int | float | decimal =>
    obtain ⟨ds, -, hd⟩ := h.described ha
    cases hd

/-- The items of an array are laid out in the namespace around it. -/
theorem LaidOut.array_items (h : LaidOut schema top ns node l) (ha : Accepted schema top decls)
    (hplain : IsType node) (hkind : typeName node = "array") :
    ∃ l', LaidOut schema top (innerOf node ns) (itemsOf node) l' := by
  obtain hobj | hprimitive := hplain
  · obtain ⟨ds, -, hd⟩ := h.described ha
    cases hd with
    | array =>
      rw [innerOf_unnamed (by rw [hkind]; rfl)]
      exact ⟨_, h.items⟩
    | annotated hp => exact absurd hkind (not_kind hp rfl)
    | map hother | enum hother | fixed hother | record hother =>
      exact absurd (hkind.symm.trans hother) (by decide)
    | name | reference | union => cases hobj
  · rw [hkind] at hprimitive
    cases hprimitive

/-- The types of the fields of a record are laid out in the namespace inside it, and the fields have
names. -/
theorem LaidOut.record_fields (h : LaidOut schema top ns node l) (ha : Accepted schema top decls)
    (hplain : IsType node) (hkind : typeName node = "record") :
    ∀ f ∈ fieldsOf node, f.has "name" = true ∧
      ∃ l', LaidOut schema top (innerOf node ns) (typeOf f) l' := by
  obtain hobj | hprimitive := hplain
  · obtain ⟨ds, -, hd⟩ := h.described ha
    cases hd with
    | record _ hfields hfield =>
      intro f hf
      rw [hfields] at hf
      obtain ⟨p, hp, rfl⟩ := List.mem_map.mp hf
      rw [innerOf_named (by rw [hkind]; rfl)]
      refine ⟨(hfield p hp).named, p.layout, h.field (g := p.field) ?_⟩
      rw [hfields]
      exact mem_zip_pieces.mpr ⟨p, hp, rfl⟩
    | annotated hp => exact absurd hkind (not_kind hp rfl)
    | array hother | map hother | enum hother | fixed hother =>
      exact absurd (hkind.symm.trans hother) (by decide)
    | name | reference | union => cases hobj
  · rw [hkind] at hprimitive
    cases hprimitive

/-- A walk meets nodes where the library lays them out. -/
theorem Reaches.laidOut (h : Reaches (Registry.ofSchema schema) schema ns node)
    (ha : Accepted schema top decls) : ∃ l, LaidOut schema top ns node l := by
  induction h with
  | whole => exact ⟨top, .whole⟩
  | member _ hmember ih =>
    obtain ⟨l, hl⟩ := ih
    obtain ⟨ds, -, hd⟩ := hl.described ha
    cases hd with
    | union =>
      obtain ⟨p, hp, rfl⟩ := List.mem_map.mp hmember
      exact ⟨_, hl.member (mem_zip_pieces.mpr ⟨p, hp, rfl⟩)⟩
  | items _ hnode hresolve hkind ih =>
    obtain ⟨l, hl⟩ := ih
    obtain ⟨plain, outer, l', hresolve', hl', hplain⟩ := hl.resolve ha hnode
    cases hresolve.symm.trans hresolve'
    exact hl'.array_items ha hplain hkind
  | field _ hnode hresolve hkind hf ih =>
    obtain ⟨l, hl⟩ := ih
    obtain ⟨plain, outer, l', hresolve', hl', hplain⟩ := hl.resolve ha hnode
    cases hresolve.symm.trans hresolve'
    exact (hl'.record_fields ha hplain hkind _ hf).2

/-- A schema that the library takes is settled. -/
theorem Accepted.settled (ha : Accepted schema top decls) :
    Settled schema top (Registry.ofSchema schema) where
  laidOut _ _ h := h.laidOut ha
  refers _ _ h hname :=
    have ⟨_, hl⟩ := h.laidOut ha
    hl.refers ha hname
  named ns node plain inner h hresolve hkind f hf := by
    have hnode : ∀ members, node ≠ .arr members := by
      rintro members rfl
      rw [Registry.resolve] at hresolve
      · cases hresolve
        exact absurd (show "union" = "record" from hkind) (by decide)
      · exact fun _ => Json.noConfusion
    obtain ⟨l, hl⟩ := h.laidOut ha
    obtain ⟨plain', outer, l', hresolve', hl', hplain⟩ := hl.resolve ha hnode
    cases hresolve.symm.trans hresolve'
    exact (hl'.record_fields ha hplain hkind f hf).1

end settled

end Schema

open Schema (Reaches Settled)
open Value (StandsAt Offends)

/-! ## Failures -/

/-- Whether a failure says that a schema is wrong: that it is invalid, or that it lacks a key. -/
def Failure.blamesSchema : Failure → Bool
  | .invalidSchema _ _ => true
  | .missingKey _ => true
  | _ => false

section failures

variable {options : Options} {registry : Schema.Registry} {schema node : Json} {top : Layout}
  {document v : Value} {f : Failure}

theorem Coercion.Breaks.not_schema (h : Coercion.Breaks options node v f) :
    f.blamesSchema = false := by
  cases h with
  | reading _ _ _ h => cases h <;> rfl
  | converting _ _ h =>
    cases h with
    | number _ _ _ _ h => cases h <;> rfl
    | @object _ fault => cases fault <;> rfl
    | _ => rfl

theorem Schema.Settled.resolve {ns : String} (hs : Settled schema top registry)
    (h : Reaches registry schema ns node) : ∃ result, registry.resolve node ns = .ok result := by
  cases node with
  | str name =>
    cases hname : Schema.primitiveNames.contains name with
    | true => exact ⟨(.str name, ns), by simp only [Schema.Registry.resolve, hname, if_true]⟩
    | false =>
      obtain ⟨declared, hrefers⟩ := hs.refers ns name h hname
      exact ⟨_, hrefers.resolve⟩
  | _ => exact ⟨_, rfl⟩

/-- A walk along a settled schema stumbles over values only. -/
theorem Stumbles.breaks_of_settled (h : Stumbles options registry schema document f)
    (hs : Settled schema top registry) :
    ∃ ns inner node plain path v, Reaches registry schema ns node ∧
      registry.resolve node ns = .ok (plain, inner) ∧ StandsAt document path v ∧
      Coercion.Breaks options plain v f := by
  cases h with
  | unresolved hreach hresolve =>
    obtain ⟨result, hresult⟩ := hs.resolve hreach
    cases hresult.symm.trans hresolve
  | breaks hreach hresolve hplace h => exact ⟨_, _, _, _, _, _, hreach, hresolve, hplace, h⟩

end failures

section accepted

variable {options : Options} {schema : Json}

theorem Encoder.settled {e : Encoder} (he : Encoder.ofSchema options schema = .ok e) :
    e.schema = schema ∧ e.options = options ∧ Settled schema e.layout e.registry := by
  obtain ⟨layout, -, hlayout, -, rfl⟩ := Encoder.ofSchema_parts he
  obtain ⟨decls, ha⟩ := Schema.accepted_of_ofSchema hlayout
  exact ⟨rfl, rfl, ha.settled⟩

/-- Preparing fails with a refusal that gives the path of what offends, or because the table of scalars
breaks on some value inside the document. -/
theorem Encoder.prepare_error {e : Encoder} {document : Value} {f : Failure}
    (he : Encoder.ofSchema options schema = .ok e) (h : e.prepare document = .error f) :
    (∃ path expected actual fault,
      f = .encoding path expected actual fault ∧ Offends document path fault) ∨
    ∃ ns inner node plain path v, Reaches e.registry schema ns node ∧
      e.registry.resolve node ns = .ok (plain, inner) ∧ StandsAt document path v ∧
      Coercion.Breaks options plain v f := by
  obtain ⟨rfl, rfl, hs⟩ := Encoder.settled he
  obtain hrefused | hstumbles := Encoding.prepareNode_error .whole .whole h
  · exact .inl hrefused
  · exact .inr (hstumbles.breaks_of_settled hs)

/-- A set in a list breaks the rendering of the list as text. -/
theorem Encoder.prepare_set :
    let options := Options.standard "R" "" (List.replicate 16 7)
    let schema : Json := .obj [("type", .str "record"), ("name", .str "R"),
      ("fields", .arr [.obj [("name", .str "x"), ("type", .str "string")]])]
    ∃ e, Encoder.ofSchema options schema = .ok e ∧
      e.prepare (.struct [(.text "x", .list [.set [.int 1]])]) = .error (.unsupportedValue "set") := by
  intro options schema
  have hcheck : Schema.check schema = .ok (Schema.Registry.ofSchema schema) := by decide +kernel
  let layout : Layout := .record "R" [("x", none, .primitive .string none)]
  have hlayout : Layout.ofSchema schema = .ok layout := by decide +kernel
  refine ⟨⟨schema, Schema.Registry.ofSchema schema, layout, options⟩, ?_, ?_⟩
  · exact Encoder.ofSchema_eq _ hcheck hlayout
  · cbv

theorem Encoder.prepare_not_schema {e : Encoder} {document : Value} {f : Failure}
    (he : Encoder.ofSchema options schema = .ok e) (h : e.prepare document = .error f) :
    f.blamesSchema = false := by
  obtain ⟨_, _, _, _, rfl, -⟩ | ⟨_, _, _, _, _, _, -, -, -, hbreaks⟩ := Encoder.prepare_error he h
  · rfl
  · exact hbreaks.not_schema

theorem Reconciler.toValue_not_schema {r : Reconciler} {top : Layout} {datum : Value} {f : Failure}
    (hs : Settled r.schema top r.registry) (h : r.toValue datum = .error f) :
    f.blamesSchema = false := by
  obtain ⟨m, rfl⟩ | hstumbles := Reconciler.valueNode_error .whole .whole h
  · rfl
  · obtain ⟨_, _, _, _, _, _, -, -, -, hbreaks⟩ := hstumbles.breaks_of_settled hs
    exact hbreaks.not_schema

/-- When an encoder or a decoder was constructed, the schema is in order for good: walks along it meet
every reference where the library does and resolve it to the declaration that the library uses, they
look no other references up, and whatever the document or the datum, they end with a result or with a
failure that is not one of the schema. -/
theorem references_settled (options : Options) (schema : Json) :
    (∀ e, Encoder.ofSchema options schema = .ok e →
      Layout.ofSchema schema = .ok e.layout ∧ Settled schema e.layout e.registry ∧
      ∀ document,
        ((∃ datum, e.prepare document = .ok datum) ∨
          ∃ f, e.prepare document = .error f ∧ f.blamesSchema = false) ∧
        ∀ other, Schema.AgreesOn schema e.registry other →
          { e with registry := other }.prepare document = e.prepare document) ∧
    ∀ d, Decoder.ofSchema options (some schema) = .ok d →
      ∃ registry layout, d = ⟨some (schema, registry, layout), options⟩ ∧
        Layout.ofSchema schema = .ok layout ∧ Settled schema layout registry ∧
        ∀ strict datum, let r : Reconciler := ⟨schema, registry, options, strict⟩
          ((∃ value, r.toValue datum = .ok value) ∨
            ∃ f, r.toValue datum = .error f ∧ f.blamesSchema = false) ∧
          ∀ other, Schema.AgreesOn schema registry other →
            { r with registry := other }.toValue datum = r.toValue datum := by
  constructor
  · intro e he
    obtain ⟨layout, -, hlayout, -, rfl⟩ := Encoder.ofSchema_parts he
    obtain ⟨-, -, hs⟩ := Encoder.settled he
    refine ⟨hlayout, hs, fun document => ⟨?_, fun other hother => ?_⟩⟩
    · cases hprepare : Encoder.prepare _ document with
      | ok datum => exact .inl ⟨datum, rfl⟩
      | error f => exact .inr ⟨f, rfl, Encoder.prepare_not_schema he hprepare⟩
    · exact Encoding.prepareNode_agrees hother .whole _ _
  · intro d hd
    obtain ⟨layout, -, hlayout, -, rfl⟩ := Decoder.ofSchema_parts hd
    obtain ⟨decls, ha⟩ := Schema.accepted_of_ofSchema hlayout
    refine ⟨_, layout, rfl, hlayout, ha.settled, fun strict datum => ?_⟩
    intro r
    refine ⟨?_, fun other hother => ?_⟩
    · cases hvalue : r.toValue datum with
      | ok value => exact .inl ⟨value, rfl⟩
      | error f => exact .inr ⟨f, rfl, Reconciler.toValue_not_schema (r := r) ha.settled hvalue⟩
    · exact Reconciler.valueNode_agrees (r := r) hother .whole _ _

/-- Three records that refer to each other and to themselves, two of them with one short name: `n.A`
holds `m.B` and `n.B`, and what `B` stands for depends on where it stands. -/
theorem references_settled_short_names :
    let field (name : String) (type : Json) : Json :=
      .obj [("name", .str name), ("type", .arr [.str "null", type])]
    let record (name : String) (fields : List Json) : Json :=
      .obj [("type", .str "record"), ("name", .str name), ("fields", .arr fields)]
    let dotted := record "m.B" [field "up" (.str "n.A"), field "next" (.str "B")]
    let plain := record "B" [field "up" (.str "A"), field "next" (.str "B")]
    let schema := record "n.A" [field "x" dotted, field "y" plain]
    let options := Options.standard "A" "" (List.replicate 16 7)
    ∃ e d, Encoder.ofSchema options schema = .ok e ∧ Decoder.ofSchema options (some schema) = .ok d ∧
      Schema.Refers schema e.layout e.registry "m" "B" dotted ∧
      Schema.Refers schema e.layout e.registry "n" "B" plain ∧
      Schema.Refers schema e.layout e.registry "m" "n.A" schema ∧
      (∀ document, (∃ datum, e.prepare document = .ok datum) ∨
        ∃ f, e.prepare document = .error f ∧ f.blamesSchema = false) ∧
      ∃ registry layout, d = ⟨some (schema, registry, layout), options⟩ ∧
        Schema.Settled schema layout registry := by
  intro field record dotted plain schema options
  let nullable (l : Layout) : Layout := .union [.primitive .null none, l]
  let layout : Layout := .record "n.A" [
    ("x", none, nullable (.record "m.B" [("up", none, nullable (.reference "n.A")),
      ("next", none, nullable (.reference "m.B"))])),
    ("y", none, nullable (.record "n.B" [("up", none, nullable (.reference "n.A")),
      ("next", none, nullable (.reference "n.B"))]))]
  have hlayout : Layout.ofSchema schema = .ok layout := by decide +kernel
  have hcheck : Schema.check schema = .ok (Schema.Registry.ofSchema schema) := by decide +kernel
  let registry := Schema.Registry.ofSchema schema
  let e : Encoder := ⟨schema, registry, layout, options⟩
  let d : Decoder := ⟨some (schema, registry, layout), options⟩
  have he : Encoder.ofSchema options schema = .ok e :=
    Encoder.ofSchema_eq _ hcheck hlayout
  have hd : Decoder.ofSchema options (some schema) = .ok d :=
    Decoder.ofSchema_eq _ hcheck hlayout
  obtain ⟨-, hs, hprepare⟩ := (references_settled options schema).1 e he
  obtain ⟨_, _, hparts, -, hsettled, -⟩ :=
    (references_settled options schema).2 d hd
  have hwhole : registry.resolve schema "" = .ok (schema, "n") := by decide +kernel
  have hdotted : Reaches registry schema "n" dotted :=
    .member (.field .whole (fun _ => Json.noConfusion) hwhole rfl List.mem_cons_self)
      (List.mem_cons_of_mem _ List.mem_cons_self)
  have hplain : Reaches registry schema "n" plain :=
    .member (.field .whole (fun _ => Json.noConfusion) hwhole rfl
      (List.mem_cons_of_mem _ List.mem_cons_self)) (List.mem_cons_of_mem _ List.mem_cons_self)
  have hinside : registry.resolve dotted "n" = .ok (dotted, "m") := by decide +kernel
  have hinside' : registry.resolve plain "n" = .ok (plain, "n") := by decide +kernel
  have hup : Reaches registry schema "m" (.str "n.A") :=
    .member (.field hdotted (fun _ => Json.noConfusion) hinside rfl List.mem_cons_self)
      (List.mem_cons_of_mem _ List.mem_cons_self)
  have hnext : Reaches registry schema "m" (.str "B") :=
    .member (.field hdotted (fun _ => Json.noConfusion) hinside rfl
      (List.mem_cons_of_mem _ List.mem_cons_self)) (List.mem_cons_of_mem _ List.mem_cons_self)
  have hnext' : Reaches registry schema "n" (.str "B") :=
    .member (.field hplain (fun _ => Json.noConfusion) hinside' rfl
      (List.mem_cons_of_mem _ List.mem_cons_self)) (List.mem_cons_of_mem _ List.mem_cons_self)
  have refers {ns name : String} {declared : Json} {inner : String}
      (hreach : Reaches registry schema ns (.str name))
      (hname : Schema.primitiveNames.contains name = false)
      (hresolve : registry.resolve (.str name) ns = .ok (declared, inner)) :
      Schema.Refers schema layout registry ns name declared := by
    obtain ⟨found, hrefers⟩ := hs.refers ns name hreach hname
    cases hrefers.resolve.symm.trans hresolve
    exact hrefers
  have hdottedB : (Schema.Registry.ofSchema schema).resolve (.str "B") "m" = .ok (dotted, "m") := by
    decide +kernel
  have hplainB : (Schema.Registry.ofSchema schema).resolve (.str "B") "n" = .ok (plain, "n") := by
    decide +kernel
  have hfull : (Schema.Registry.ofSchema schema).resolve (.str "n.A") "m" = .ok (schema, "n") := by
    decide +kernel
  exact ⟨e, d, he, hd, refers hnext (by decide) hdottedB, refers hnext' (by decide) hplainB,
    refers hup (by decide) hfull, fun document => (hprepare document).1, _, _, hparts, hsettled⟩

end accepted

end AvroDocument
