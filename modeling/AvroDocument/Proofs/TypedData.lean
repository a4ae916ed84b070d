import AvroDocument.Proofs.Projection

/-!
# AvroDocument.Proofs.TypedData

Data that have the types of the nodes at which they are reconciled.

* `Schema.Typed`: a datum of the type of a node, with a property of the scalars in it.
* `Schema.typed_of_shaped`: data in the shape of the layout of a node have its type.
* `Reconciler.valueNode_resolved`: reading at a node is reading at what the node stands for.
-/

namespace AvroDocument
namespace Schema

/-- A datum of the type of a node. What is not null in a union has the type of the one member that is
not null; a record has the fields of its type, in their order. -/
inductive Typed (schema : Json) (P : Binary.ScalarProperty) : String → Json → Value → Prop
  | scalar {enclosing inner : String} {node plain : Json} {type : Primitive}
      {meaning : Option Meaning} {datum : Value}
      (hresolve : (Registry.ofSchema schema).resolve node enclosing = .ok (plain, inner))
      (hplain : Plain inner plain) (hinside : TypeIn schema plain)
      (hkind : Primitive.ofName? (typeName plain) = some type)
      (hmeaning : (∃ name, plain = .str name ∧ meaning = none) ∨
        ∃ ms, plain = .obj ms ∧ meaning = Layout.meaning? type ms)
      (h : P type meaning datum) : Typed schema P enclosing node datum
  | array {enclosing inner : String} {node plain : Json} {vs : List Value}
      (hresolve : (Registry.ofSchema schema).resolve node enclosing = .ok (plain, inner))
      (hplain : Plain inner plain) (hkind : typeName plain = "array")
      (h : ∀ v ∈ vs, Typed schema P inner (itemsOf plain) v) :
      Typed schema P enclosing node (.list vs)
  | union {enclosing : String} {members : List Json} {datum : Value}
      (h : ∀ member, members.find? (fun m => !isNullMember m) = some member → datum ≠ .null →
        Typed schema P enclosing member datum) :
      Typed schema P enclosing (.arr members) datum
  | record {enclosing inner : String} {node plain : Json} {pieces : List Piece}
      {stored : Piece → Value}
      (hresolve : (Registry.ofSchema schema).resolve node enclosing = .ok (plain, inner))
      (hplain : Plain inner plain) (hinside : TypeIn schema plain) (hkind : typeName plain = "record")
      (hfields : fieldsOf plain = pieces.map (·.node))
      (hnames : (pieces.map fun p => nameOf p.node).Nodup)
      (h : ∀ p ∈ pieces, Typed schema P inner (typeOf p.node) (stored p)) :
      Typed schema P enclosing node
        (.struct (Binary.entriesFor (fun p => nameOf p.node) stored pieces))

section

variable {schema : Json} {P : Binary.ScalarProperty} {decls : List (String × Json)}
  {top l : Layout} {enclosing inner : String} {node plain : Json} {datum : Value}

/-- A name has the type that it stands for. -/
theorem Typed.of_resolved
    (hresolve : (Registry.ofSchema schema).resolve node enclosing = .ok (plain, inner))
    (hplain : Plain inner plain) (h : Typed schema P inner plain datum) :
    Typed schema P enclosing node datum := by
  have hsame {plain' : Json} {inner' : String}
      (h : (Registry.ofSchema schema).resolve plain inner = .ok (plain', inner')) :
      (Registry.ofSchema schema).resolve node enclosing = .ok (plain', inner') := by
    rw [hplain.resolve] at h
    cases h
    exact hresolve
  cases h with
  | scalar hresolve' hplain' hinside hkind hmeaning h =>
    exact .scalar (hsame hresolve') hplain' hinside hkind hmeaning h
  | array hresolve' hplain' hkind h => exact .array (hsame hresolve') hplain' hkind h
  | union => exact absurd rfl (hplain.not_union _)
  | record hresolve' hplain' hinside hkind hfields hnames h =>
    exact .record (hsame hresolve') hplain' hinside hkind hfields hnames h

/-- What a node stands for when its layout is no union. -/
theorem Within.exists_plain (hs : Sound (TypeIn schema) schema top decls)
    (h : Within (TypeIn schema) schema decls enclosing node l) (hl : ∀ layouts, l ≠ .union layouts) :
    ∃ plain inner l', (Registry.ofSchema schema).resolve node enclosing = .ok (plain, inner) ∧
      Within (TypeIn schema) schema decls inner plain l' ∧ Plain inner plain ∧
      Form (TypeIn schema) schema decls inner plain l' ∧ StandsFor top.declarations l l' := by
  have hnode : ∀ members, node ≠ .arr members := by
    rintro members rfl
    obtain ⟨pieces, -, rfl, -⟩ := h.members hs.hereditary
    exact hl _ rfl
  obtain ⟨plain, inner, l', hresolve, hinside, hplain, hstands, -⟩ := h.resolve hs hnode
  exact ⟨plain, inner, l', hresolve, hinside, hplain, hinside.form hs.hereditary hplain, hstands⟩

/-- Data in the shape of the layout of a node have the type of the node. -/
theorem typed_of_shaped (hs : Sound (TypeIn schema) schema top decls)
    (hP : ∀ v, P .null none v → Binary.Stored .null none v)
    (h : Binary.Shaped top.declarations P l datum)
    (hwithin : Within (TypeIn schema) schema decls enclosing node l) :
    Typed schema P enclosing node datum := by
  induction h generalizing enclosing node with
  | primitive hv =>
    obtain ⟨plain, inner, l', hresolve, hinside, hplain, hform, hstands⟩ :=
      hwithin.exists_plain hs (by simp)
    obtain rfl | ⟨_, hreference, -⟩ := hstands
    · cases hform with
      | primitive hkind hmeaning => exact .scalar hresolve hplain hinside.holds hkind hmeaning hv
    · cases hreference
  | array _ ih =>
    obtain ⟨plain, inner, l', hresolve, -, hplain, hform, hstands⟩ :=
      hwithin.exists_plain hs (by simp)
    obtain rfl | ⟨_, hreference, -⟩ := hstands
    · cases hform with
      | array hkind hitems => exact .array hresolve hplain hkind fun v hv => ih v hv hitems
    · cases hreference
  | @union layouts l v hmember hshaped ih =>
    by_cases hnode : ∃ members, node = .arr members
    · obtain ⟨members, rfl⟩ := hnode
      exact .union fun member hfind hnull =>
        ih (hwithin.present_member hP hmember hshaped hnull hfind)
    · obtain ⟨plain, inner, l', -, hinside, hplain, hstands, -⟩ :=
        hwithin.resolve hs fun members he => hnode ⟨members, he⟩
      obtain rfl | ⟨_, hreference, -⟩ := hstands
      · cases hinside.form hs.hereditary hplain
      · cases hreference
  | @record name fields stored _ ih =>
    obtain ⟨plain, inner, l', hresolve, hinside, hplain, hform, hstands⟩ :=
      hwithin.exists_plain hs (by simp)
    obtain rfl | ⟨_, hreference, -⟩ := hstands
    · cases hform with
      | @record pieces hkind hfields _ hnames hpieces =>
        have hentries : (pieces.map Piece.field).map (fun f => (Key.text f.1, stored f)) =
            Binary.entriesFor (fun p => nameOf p.node) (fun p => stored p.field) pieces :=
          List.map_map
        rw [hentries]
        exact .record hresolve hplain hinside.holds hkind hfields hnames fun p hp =>
          ih p.field (List.mem_map_of_mem hp) (hpieces p hp)
    · cases hreference
  | reference hlookup _ ih =>
    obtain ⟨plain, inner, l', hresolve, hinside, hplain, hform, hstands⟩ :=
      hwithin.exists_plain hs (by simp)
    obtain rfl | ⟨_, hreference, hplace⟩ := hstands
    · cases hform
    · cases hreference
      rw [hlookup] at hplace
      obtain rfl := Option.some.inj hplace
      exact .of_resolved hresolve hplain (ih hinside)

/-- What is read with the layout of a schema has the type of the schema. -/
theorem typed_of_read (hlayout : Layout.ofSchema schema = .ok l) (hregular : l.Regular)
    {bytes rest : List UInt8} (h : Binary.read l bytes = .ok (datum, rest)) :
    Typed schema Binary.Stored "" schema datum := by
  obtain ⟨decls, hs⟩ := sound_of_layout (hereditary_typeIn schema) .whole hlayout hregular
  exact typed_of_shaped hs (fun _ hv => hv) (Binary.shaped_of_read hregular h) hs.within

end

end Schema

/-- Reading at a node is reading at what it stands for. -/
theorem Reconciler.valueNode_resolved (r : Reconciler) {enclosing inner : String}
    {node plain : Json} (hresolve : r.registry.resolve node enclosing = .ok (plain, inner))
    (hplain : Schema.Plain inner plain) (path : String) (datum : Value) :
    r.valueNode enclosing path node datum = r.valueNode inner path plain datum := by
  have hnode : ∀ members, node ≠ .arr members := by
    rintro members rfl
    cases hresolve
    exact hplain.not_union _ rfl
  rw [Reconciler.valueNode_other hnode, hresolve, valueNode_plain hplain]

end AvroDocument
