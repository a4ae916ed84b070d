import AvroDocument.Proofs.Fixpoint

/-!
# AvroDocument.Proofs.Revision

Schemas that were revised, and the documents that they show.

* `Schema.Revises`: fields deleted, put in another order, and added with null or a default, at any
  depth.
* `referenceFree_of_holdsDown`, `distinctAltNames_of_holdsDown`, `Revises.of_fields`: checks of one
  node after the other.
* `Schema.project`: the part of a document that a revised schema shows.
* `Schema.Standalone`: nodes that are neither unions nor references; in a schema without references
  every node but unions is one.
* `Revises.standalone`: revised nodes are of the same kind.
-/

namespace AvroDocument
namespace Schema

/-! ## Revised schemas -/

/-- Whether no type in a schema refers to a declared one. -/
def ReferenceFree (schema : Json) : Prop :=
  ∀ name, TypeIn schema (.str name) → primitiveNames.contains name = true

/-- Whether the names that fields have for a purpose are distinct in every record of a schema. -/
def DistinctAltNames (purpose : String) (schema : Json) : Prop :=
  ∀ node, TypeIn schema node → typeName node = "record" →
    ((fieldsOf node).map (altName · purpose)).Nodup

/-- Whether two nodes have the same members but for one. -/
def SameBut (key : String) (j k : Json) : Prop := ∀ other, other ≠ key → k.get? other = j.get? other

/-- A field that is new to a record, under its name and its aliases, and can do without data. -/
structure Addition (fields : List Json) (f : Json) : Prop where
  new : ∀ name ∈ nameOf f :: aliasesOf f, name ∉ fields.map nameOf
  optional : isNullable (typeOf f) = true ∨ f.has "default" = true

/-- The second schema is the first one with fields deleted, put in another order and added, at any
depth. What else a node or a field says stays. -/
inductive Revises : Json → Json → Prop
  | leaf {node : Json} (hunion : ∀ members, node ≠ .arr members) (harray : typeName node ≠ "array")
      (hrecord : typeName node ≠ "record") : Revises node node
  | union {members : List (Json × Json)} (h : ∀ m ∈ members, Revises m.1 m.2) :
      Revises (.arr (members.map (·.1))) (.arr (members.map (·.2)))
  | array {writer reader : Json} (hkind : typeName writer = "array")
      (hsame : SameBut "items" writer reader) (h : Revises (itemsOf writer) (itemsOf reader)) :
      Revises writer reader
  | record {writer reader : Json} (hkind : typeName writer = "record")
      (hsame : SameBut "fields" writer reader)
      (hkept : ∀ g ∈ fieldsOf writer, ∀ f ∈ fieldsOf reader, nameOf f = nameOf g →
        SameBut "type" g f)
      (h : ∀ g ∈ fieldsOf writer, ∀ f ∈ fieldsOf reader, nameOf f = nameOf g →
        Revises (typeOf g) (typeOf f))
      (hadded : ∀ f ∈ fieldsOf reader, nameOf f ∉ (fieldsOf writer).map nameOf →
        Addition (fieldsOf writer) f) :
      Revises writer reader

/-! ### Checks -/

section checks

variable {purpose : String} {schema type writer reader : Json}

/-- Whether a check holds of a node and of the types inside it, which are at most so deep. -/
def holdsDown (check : Json → Bool) : Nat → Json → Bool
  | 0, _ => false
  | depth + 1, node => check node && (innerTypes node).all (holdsDown check depth)

theorem holds_of_holdsDown {check : Json → Bool} {depth : Nat}
    (h : holdsDown check depth schema = true) (htype : TypeIn schema type) : check type = true := by
  suffices hdepth : ∃ depth, holdsDown check depth type = true by
    obtain ⟨depth, hdown⟩ := hdepth
    cases depth with
    | zero => cases hdown
    | succ depth =>
      rw [holdsDown, Bool.and_eq_true] at hdown
      exact hdown.1
  induction htype with
  | whole => exact ⟨depth, h⟩
  | inner _ htype ih =>
    obtain ⟨depth, hdown⟩ := ih
    cases depth with
    | zero => cases hdown
    | succ depth =>
      rw [holdsDown, Bool.and_eq_true, List.all_eq_true] at hdown
      exact ⟨depth, hdown.2 _ htype⟩

/-- A node that refers to no declared type itself. -/
def notReference : Json → Bool
  | .str name => primitiveNames.contains name
  | _ => true

theorem referenceFree_of_holdsDown {depth : Nat}
    (h : holdsDown notReference depth schema = true) : ReferenceFree schema :=
  fun _ hname => holds_of_holdsDown h hname

/-- A node whose fields have distinct names for a purpose, if it is a record. -/
def namesApart (purpose : String) (node : Json) : Bool :=
  typeName node ≠ "record" || ((fieldsOf node).map (altName · purpose)).Nodup

theorem distinctAltNames_of_holdsDown {depth : Nat}
    (h : holdsDown (namesApart purpose) depth schema = true) :
    DistinctAltNames purpose schema := by
  intro node hnode hkind
  have happart := holds_of_holdsDown h hnode
  rw [namesApart, Bool.or_eq_true, decide_eq_true_iff, decide_eq_true_iff] at happart
  exact happart.resolve_left (not_not_intro hkind)

/-- Objects that differ in the last member. -/
theorem sameBut_last (key : String) (ms : List (String × Json)) (j k : Json) :
    SameBut key (.obj (ms ++ [(key, j)])) (.obj (ms ++ [(key, k)])) := by
  intro other hother
  show lookup? other (ms ++ [(key, k)]) = lookup? other (ms ++ [(key, j)])
  induction ms with
  | nil => exact (if_neg hother.symm).trans (if_neg hother.symm).symm
  | cons m ms ih =>
    rw [List.cons_append, List.cons_append, lookup?, lookup?, ih]

/-- A record is revised when each new field has a counterpart or is an addition. -/
theorem Revises.of_fields (hkind : typeName writer = "record")
    (hsame : SameBut "fields" writer reader) (hnames : ((fieldsOf writer).map nameOf).Nodup)
    (h : ∀ f ∈ fieldsOf reader,
      (∃ g ∈ fieldsOf writer, nameOf f = nameOf g ∧ SameBut "type" g f ∧
        Revises (typeOf g) (typeOf f)) ∨ Addition (fieldsOf writer) f) :
    Revises writer reader := by
  have hkept : ∀ g ∈ fieldsOf writer, ∀ f ∈ fieldsOf reader, nameOf f = nameOf g →
      SameBut "type" g f ∧ Revises (typeOf g) (typeOf f) := by
    intro g hg f hf hname
    obtain ⟨g', hg', hname', hkept⟩ | hadded := h f hf
    · have hsame : g' = g := List.inj_on_of_nodup_map hnames hg' hg (hname'.symm.trans hname)
      rwa [← hsame]
    · exact absurd (List.mem_map.mpr ⟨g, hg, hname.symm⟩) (hadded.new _ List.mem_cons_self)
  refine .record hkind hsame (fun g hg f hf hname => (hkept g hg f hf hname).1)
    (fun g hg f hf hname => (hkept g hg f hf hname).2) fun f hf hnew => ?_
  obtain ⟨g, hg, hname, -⟩ | hadded := h f hf
  · exact absurd (List.mem_map.mpr ⟨g, hg, hname.symm⟩) hnew
  · exact hadded

end checks

/-! ## Projections -/

/-- The value of a field that a record of an older schema lacks. -/
def addedValue (f : Json) : Value :=
  if isNullable (typeOf f) then .null else ((f.get? "default").map Value.ofJson).getD .null

mutual

/-- The part of a document of one schema that a revised schema shows: records have the fields of the
revised one, in its order. -/
def project (purpose : String) (writer reader : Json) (v : Value) : Value :=
  match v with
  | .list vs =>
    if typeName (nonNull reader) = "array" then
      .list (projectItems purpose (itemsOf (nonNull writer)) (itemsOf (nonNull reader)) vs)
    else .list vs
  | .struct entries =>
    if typeName (nonNull reader) = "record" then
      .struct ((fieldsOf (nonNull reader)).map fun f =>
        (.text (altName f purpose), projectField purpose (fieldsOf (nonNull writer)) entries f))
    else .struct entries
  | v => v
termination_by sizeOf v

def projectItems (purpose : String) (writer reader : Json) : List Value → List Value
  | [] => []
  | v :: vs => project purpose writer reader v :: projectItems purpose writer reader vs
termination_by vs => sizeOf vs

/-- The value of a field of the revised schema: that of the field of the same name, if any. -/
def projectField (purpose : String) (fields : List Json) (entries : List (Key × Value)) (f : Json) :
    Value :=
  match fields.find? fun g => nameOf g = nameOf f with
  | none => addedValue f
  | some g =>
    match _h : Value.member? (altName f purpose) entries with
    | none => addedValue f
    | some v => project purpose (typeOf g) (typeOf f) v
termination_by sizeOf entries
decreasing_by exact Value.sizeOf_lt_of_member? _h

end

/-! ## Nodes that stand for themselves -/

/-- A node that is neither a union nor a reference. -/
def Standalone (node : Json) : Prop :=
  node.isObj = true ∨ ∃ name p, node = .str name ∧ Primitive.ofName? name = some p

section standalone

variable {node : Json} {enclosing : String}

theorem Standalone.not_union (h : Standalone node) (members : List Json) : node ≠ .arr members := by
  rintro rfl
  obtain h | ⟨_, _, h, -⟩ := h
  · cases h
  · cases h

theorem Standalone.plain (h : Standalone node) (enclosing : String) :
    Plain (innerOf node enclosing) node := by
  refine ⟨h, ?_⟩
  cases node with
  | obj ms => exact innerOf_innerOf ms enclosing
  | _ => rfl

theorem Standalone.resolve (h : Standalone node) (registry : Registry) (enclosing : String) :
    registry.resolve node enclosing = .ok (node, innerOf node enclosing) := by
  obtain hobj | ⟨name, p, rfl, hp⟩ := h
  · cases node with
    | obj ms => rfl
    | _ => cases hobj
  · have hprimitive : primitiveNames.contains name = true := isPrimitive_iff.mpr (by rw [hp]; rfl)
    simp only [Registry.resolve, hprimitive, if_true]
    rfl

theorem Standalone.valueNode_eq (h : Standalone node) (r : Reconciler) (path : String) (v : Value) :
    r.valueNode enclosing path node v = r.valueNode (innerOf node enclosing) path node v := by
  rw [valueNode_plain (h.plain enclosing), Reconciler.valueNode_other h.not_union, h.resolve]

variable {schema : Json} {decls : List (String × Json)} {l : Layout}

/-- Without references, all nodes but unions stand for themselves. -/
theorem Within.standalone (h : Within (TypeIn schema) schema decls enclosing node l)
    (hfree : ReferenceFree schema) (hnode : ∀ members, node ≠ .arr members) : Standalone node := by
  obtain ⟨ds, -, hdescribes⟩ := h.inside.described
  cases node with
  | arr members => exact absurd rfl (hnode members)
  | obj ms => exact .inl rfl
  | str name =>
    have hprimitive := isPrimitive_iff.mp (hfree name h.holds)
    obtain ⟨p, hp⟩ := Option.isSome_iff_exists.mp hprimitive
    exact .inr ⟨name, p, rfl, hp⟩
  | null | bool | int | float | decimal => cases hdescribes

theorem Within.form_standalone (h : Within (TypeIn schema) schema decls enclosing node l)
    (hnode : Standalone node) :
    Form (TypeIn schema) schema decls (innerOf node enclosing) node l := by
  have hinside : Inside schema decls (innerOf node enclosing) node l := by
    cases node with
    | obj ms => exact h.inside.inner
    | _ => exact h.inside
  exact Within.form ⟨hinside, h.regular, h.holds⟩ (hereditary_typeIn schema)
    (hnode.plain enclosing)

theorem Within.items_standalone (h : Within (TypeIn schema) schema decls enclosing node l)
    (hnode : Standalone node) (hkind : typeName node = "array") :
    ∃ items, l = .array items ∧
      Within (TypeIn schema) schema decls (innerOf node enclosing) (itemsOf node) items := by
  cases h.form_standalone hnode with
  | primitive hprimitive => exact absurd hkind (not_kind hprimitive rfl)
  | array _ hitems => exact ⟨_, rfl, hitems⟩
  | record hrecord =>
    rw [hkind] at hrecord
    exact absurd hrecord (by decide)

theorem Within.fields_standalone (h : Within (TypeIn schema) schema decls enclosing node l)
    (hnode : Standalone node) (hkind : typeName node = "record") :
    ∃ (name : String) (pieces : List Piece), l = .record name (pieces.map Piece.field) ∧
      fieldsOf node = pieces.map (·.node) ∧ (pieces.map fun p => nameOf p.node).Nodup ∧
      ∀ p ∈ pieces, Within (TypeIn schema) schema decls (innerOf node enclosing) (typeOf p.node)
        p.layout := by
  cases h.form_standalone hnode with
  | primitive hprimitive => exact absurd hkind (not_kind hprimitive rfl)
  | array harray =>
    rw [hkind] at harray
    exact absurd harray (by decide)
  | record _ hfields _ hnames hpieces => exact ⟨_, _, rfl, hfields, hnames, hpieces⟩

end standalone

/-! ## Revised nodes -/

section revised

variable {purpose key : String} {writer reader : Json}

/-- Nodes with the same members but one that says nothing about their kind are of the same kind. -/
theorem SameBut.kind {ms : List (String × Json)} (h : SameBut key (.obj ms) reader)
    (hkey : "type" ≠ key) (hkind : typeName (.obj ms) ≠ "") :
    typeName reader = typeName (.obj ms) ∧ ∃ ks, reader = .obj ks := by
  have htype : reader.get? "type" = lookup? "type" ms := h "type" hkey
  cases reader with
  | obj ks =>
    have htype : lookup? "type" ks = lookup? "type" ms := htype
    refine ⟨?_, ks, rfl⟩
    rw [typeName, typeName, typeNode, typeNode, htype]
  | _ =>
    have hnone : none = lookup? "type" ms := htype
    rw [typeName, typeNode, ← hnone] at hkind
    exact absurd rfl hkind

/-- The nodes of a revised array or record are objects of one kind. -/
theorem SameBut.objects {kind : String} (h : SameBut key writer reader) (hkey : "type" ≠ key)
    (hwriter : Standalone writer) (hkind : typeName writer = kind)
    (hother : Primitive.ofName? kind = none) (hname : kind ≠ "") :
    ∃ ms ks, writer = .obj ms ∧ reader = .obj ks ∧ typeName reader = kind := by
  obtain ⟨ms, rfl⟩ := (hwriter.plain "").isObj (by rw [hkind, hother])
  obtain ⟨htype, ks, rfl⟩ := h.kind hkey (by rw [hkind]; exact hname)
  exact ⟨ms, ks, rfl, rfl, htype.trans hkind⟩

theorem not_union_of_kind {node : Json} {kind : String} (h : typeName node = kind)
    (hkind : kind ≠ "union") (members : List Json) : node ≠ .arr members := by
  rintro rfl
  exact hkind h.symm

theorem Revises.standalone (h : Revises writer reader) (hwriter : Standalone writer) :
    typeName reader = typeName writer ∧ Standalone reader := by
  have hsame {key kind : String} (hsame : SameBut key writer reader) (hkey : "type" ≠ key)
      (hkind : typeName writer = kind) (hother : Primitive.ofName? kind = none)
      (hname : kind ≠ "") :
      typeName reader = typeName writer ∧ Standalone reader := by
    obtain ⟨ms, ks, -, rfl, hkind'⟩ := hsame.objects hkey hwriter hkind hother hname
    exact ⟨hkind'.trans hkind.symm, .inl rfl⟩
  cases h with
  | leaf => exact ⟨rfl, hwriter⟩
  | union => exact absurd rfl (hwriter.not_union _)
  | array hkind hbut => exact hsame hbut (by decide) hkind rfl (by decide)
  | record hkind hbut => exact hsame hbut (by decide) hkind rfl (by decide)

theorem Revises.isNullMember_eq (h : Revises writer reader) (hwriter : Standalone writer) :
    isNullMember reader = isNullMember writer := by
  obtain ⟨htype, hreader⟩ := h.standalone hwriter
  rw [isNullMember_iff hreader.not_union, isNullMember_iff hwriter.not_union, htype]

theorem project_other {v : Value} (hlist : ∀ vs, v ≠ .list vs)
    (hstruct : ∀ entries, v ≠ .struct entries) : project purpose writer reader v = v := by
  rw [project]
  · exact hlist
  · exact hstruct

theorem project_null : project purpose writer reader .null = .null :=
  project_other (by simp) (by simp)

/-- The projection depends on the types without null only. -/
theorem project_congr {writer' reader' : Json} (hwriter : nonNull writer = nonNull writer')
    (hreader : nonNull reader = nonNull reader') (v : Value) :
    project purpose writer reader v = project purpose writer' reader' v := by
  by_cases hlist : ∃ vs, v = .list vs
  · obtain ⟨vs, rfl⟩ := hlist
    rw [project, project, hwriter, hreader]
  by_cases hstruct : ∃ entries, v = .struct entries
  · obtain ⟨entries, rfl⟩ := hstruct
    rw [project, project, hwriter, hreader]
  have hother (writer reader : Json) : project purpose writer reader v = v :=
    project_other (fun vs h => hlist ⟨vs, h⟩) fun entries h => hstruct ⟨entries, h⟩
  rw [hother, hother]

theorem nonNull_standalone (h : Standalone writer) : nonNull writer = writer := by
  cases writer with
  | arr members => exact absurd rfl (h.not_union members)
  | _ => rfl

theorem project_list (hwriter : Standalone writer) (hreader : Standalone reader)
    (hkind : typeName reader = "array") (vs : List Value) :
    project purpose writer reader (.list vs) =
      .list (projectItems purpose (itemsOf writer) (itemsOf reader) vs) := by
  rw [project, nonNull_standalone hwriter, nonNull_standalone hreader, if_pos hkind]

theorem project_struct (hwriter : Standalone writer) (hreader : Standalone reader)
    (hkind : typeName reader = "record") (entries : List (Key × Value)) :
    project purpose writer reader (.struct entries) =
      .struct ((fieldsOf reader).map fun f =>
        (.text (altName f purpose), projectField purpose (fieldsOf writer) entries f)) := by
  rw [project, nonNull_standalone hwriter, nonNull_standalone hreader, if_pos hkind]

theorem project_leaf (h : Standalone reader) (harray : typeName reader ≠ "array")
    (hrecord : typeName reader ≠ "record") (v : Value) :
    project purpose writer reader v = v := by
  cases v with
  | list vs => rw [project, nonNull_standalone h, if_neg harray]
  | struct entries => rw [project, nonNull_standalone h, if_neg hrecord]
  | _ => exact project_other nofun nofun

end revised

/-! ## Names below a node -/

section names

variable {purpose : String} {schema node type : Json}

theorem TypeIn.trans (h : TypeIn node type) (hnode : TypeIn schema node) : TypeIn schema type := by
  induction h with
  | whole => exact hnode
  | inner _ htype ih => exact ih.inner htype

theorem DistinctAltNames.inner (h : DistinctAltNames purpose node)
    (htype : type ∈ innerTypes node) :
    DistinctAltNames purpose type :=
  fun below hbelow => h below (hbelow.trans (.inner .whole htype))

theorem DistinctAltNames.null : DistinctAltNames purpose (.str "null") := by
  intro node hnode hkind
  have hnull : node ∈ [Json.str "null"] :=
    hnode.mem List.mem_cons_self fun j hj => by
      rw [List.mem_singleton.mp hj]
      exact List.nil_subset _
  rw [List.mem_singleton.mp hnull] at hkind
  exact absurd hkind (by decide)

theorem DistinctAltNames.items {ms : List (String × Json)}
    (h : DistinctAltNames purpose (.obj ms)) (hkind : typeName (.obj ms) = "array") :
    DistinctAltNames purpose (itemsOf (.obj ms)) := by
  rw [itemsOf, Json.getD, Json.get?, Json.members]
  cases hitems : lookup? "items" ms with
  | none => exact .null
  | some items => exact h.inner (by simp [innerTypes, hkind, hitems])

theorem DistinctAltNames.field {ms : List (String × Json)} {f : Json}
    (h : DistinctAltNames purpose (.obj ms)) (hkind : typeName (.obj ms) = "record")
    (hf : f ∈ fieldsOf (.obj ms)) : DistinctAltNames purpose (typeOf f) :=
  h.inner (by simpa [innerTypes, hkind] using ⟨f, hf, rfl⟩)

end names

end Schema
end AvroDocument
