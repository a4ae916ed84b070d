import AvroDocument.Proofs.Regular

/-!
# AvroDocument.Proofs.Within

The nodes of a schema whose types are all supported.

* `Schema.Hereditary`: properties that pass from a node to the types inside it.
* `Schema.Within`: a node somewhere in the schema, with a regular layout and such a property.
* `Within.members`, `Within.resolve`, `Within.form`: what a union holds, what a node stands for, and
  the three forms of what it stands for.
-/

namespace AvroDocument
namespace Schema

/-- A property that passes from a node to the types inside it. -/
structure Hereditary (P : Json → Prop) : Prop where
  member : ∀ {members m}, P (.arr members) → m ∈ members → P m
  items : ∀ {ms items}, P (.obj ms) → typeName (.obj ms) = "array" →
    lookup? "items" ms = some items → P items
  values : ∀ {ms values}, P (.obj ms) → typeName (.obj ms) = "map" →
    lookup? "values" ms = some values → P values
  field : ∀ {ms f}, P (.obj ms) → typeName (.obj ms) = "record" → f ∈ fieldsOf (.obj ms) →
    P (typeOf f)

section

variable {P : Json → Prop} {names : List String} {enclosing : String} {node : Json}
  {layout : Layout} {ds : List (String × Json)}

/-- The declarations inside a node inherit its properties. -/
theorem Describes.inherit (h : Describes names enclosing node layout ds) (hP : Hereditary P)
    (hnode : P node) : ∀ d ∈ ds, P d.2 := by
  induction h with
  | name | reference | annotated => exact fun _ hd => nomatch hd
  | enum | fixed =>
    intro d hd
    obtain rfl := List.mem_singleton.mp hd
    exact hnode
  | array hkind hitems _ ih => exact ih (hP.items hnode hkind hitems)
  | map hkind hvalues _ ih => exact ih (hP.values hnode hkind hvalues)
  | union _ ih =>
    intro d hd
    obtain ⟨p, hp, hd⟩ := List.mem_flatMap.mp hd
    exact ih p hp (hP.member hnode (List.mem_map_of_mem hp)) d hd
  | record hkind hfields _ _ ih =>
    intro d hd
    obtain rfl | hd := List.mem_cons.mp hd
    · exact hnode
    · obtain ⟨p, hp, hd⟩ := List.mem_flatMap.mp hd
      have hfield := List.mem_map_of_mem (f := (·.node)) hp
      rw [← hfields] at hfield
      exact ih p hp (hP.field hnode hkind hfield) d hd

end

/-- A node somewhere in a schema, inside a namespace, with a regular layout and a property. -/
structure Within (P : Json → Prop) (schema : Json) (decls : List (String × Json))
    (enclosing : String) (node : Json) (layout : Layout) : Prop where
  inside : Inside schema decls enclosing node layout
  regular : layout.Regular
  holds : P node

/-- An accepted schema with a regular layout and a property that its nodes inherit. -/
structure Sound (P : Json → Prop) (schema : Json) (layout : Layout)
    (decls : List (String × Json)) : Prop where
  accepted : Accepted schema layout decls
  regular : layout.Regular
  hereditary : Hereditary P
  holds : P schema

section

variable {P : Json → Prop} {schema node : Json} {decls : List (String × Json)} {top l : Layout}
  {enclosing inner : String}

/-- A schema with a regular layout is accepted as a whole. -/
theorem sound_of_layout (hP : Hereditary P) (hholds : P schema)
    (hlayout : Layout.ofSchema schema = .ok top) (hregular : top.Regular) :
    ∃ decls, Sound P schema top decls := by
  obtain ⟨decls, haccepted⟩ := accepted_of_ofSchema hlayout
  exact ⟨decls, haccepted, hregular, hP, hholds⟩

theorem Sound.within (h : Sound P schema top decls) : Within P schema decls "" schema top :=
  ⟨h.accepted.inside, h.regular, h.holds⟩

theorem Sound.declared (h : Sound P schema top decls) {name : String} {j : Json}
    (hmem : (name, j) ∈ decls) : P j :=
  h.accepted.describes.inherit h.hereditary h.holds _ hmem

/-- The members of a union, of which one at most is not null. -/
theorem Within.members {ms : List Json} (h : Within P schema decls enclosing (.arr ms) l)
    (hP : Hereditary P) :
    ∃ pieces : List Piece, ms = pieces.map (·.node) ∧ l = .union (pieces.map (·.layout)) ∧
      pieces.countP (fun p => !isNullMember p.node) ≤ 1 ∧
      ∀ p ∈ pieces, Within P schema decls enclosing p.node p.layout ∧
        p.layout.isNullType = isNullMember p.node ∧ ∀ js, p.node ≠ .arr js := by
  obtain ⟨pieces, rfl, rfl, hpieces⟩ := h.inside.members
  have hnull : ∀ p ∈ pieces, p.layout.isNullType = isNullMember p.node := by
    intro p hp
    obtain ⟨ds, -, hdescribes⟩ := (hpieces p hp).described
    exact hdescribes.isNullType
  have hregular := h.regular
  cases hregular with
  | union hone hflat hmembers =>
    refine ⟨pieces, rfl, rfl, ?_, fun p hp => ⟨⟨hpieces p hp, ?_, ?_⟩, hnull p hp, ?_⟩⟩
    · rw [List.countP_map] at hone
      refine Nat.le_trans (List.countP_mono_left fun p hp hnot => ?_) hone
      simpa [hnull p hp] using hnot
    · exact hmembers _ (List.mem_map_of_mem hp)
    · exact hP.member h.holds (List.mem_map_of_mem hp)
    · intro js hjs
      obtain ⟨ds, -, hdescribes⟩ := (hpieces p hp).described
      have hunion := hflat _ (List.mem_map_of_mem hp)
      rw [hjs] at hdescribes
      cases hlayout : p.layout with
      | union => rw [hlayout] at hunion; cases hunion
      | _ => rw [hlayout] at hdescribes; cases hdescribes

/-- The type that a node is without null: null itself, or a type that is no union. -/
theorem Within.nonNull (h : Within P schema decls enclosing node l) (hP : Hereditary P) :
    nonNull node = .str "null" ∨
      ∃ l', Within P schema decls enclosing (nonNull node) l' ∧ ∀ js, nonNull node ≠ .arr js := by
  cases node with
  | arr members =>
    obtain ⟨pieces, rfl, -, -, hpieces⟩ := h.members hP
    simp only [Schema.nonNull]
    cases hfind : (pieces.map (·.node)).find? fun m => !isNullMember m with
    | none => exact .inl rfl
    | some m =>
      obtain ⟨p, hp, rfl⟩ := List.mem_map.mp (List.mem_of_find?_eq_some hfind)
      obtain ⟨hwithin, -, hflat⟩ := hpieces p hp
      exact .inr ⟨_, hwithin, hflat⟩
  | _ => exact .inr ⟨l, h, fun _ => Json.noConfusion⟩

theorem not_primitive_kind {kind : String} (h : namedKinds.contains kind = true) :
    Primitive.ofName? kind = none := by
  obtain ⟨hprimitive, -⟩ := not_primitive_named h
  rw [Bool.eq_false_iff, Ne, isPrimitive_iff] at hprimitive
  simpa using hprimitive

/-- Of the declarations only records have a regular layout. -/
theorem Inside.kind_of_named {ms : List (String × Json)}
    (h : Inside schema decls enclosing (.obj ms) l) (hr : l.Regular)
    (hnamed : namedKinds.contains (typeName (.obj ms)) = true) :
    typeName (.obj ms) = "record" := by
  obtain ⟨ds, -, hdescribes⟩ := h.described
  cases hdescribes with
  | annotated hp =>
    rw [not_named hp] at hnamed
    cases hnamed
  | array hkind | map hkind =>
    rw [hkind] at hnamed
    exact absurd hnamed (by decide)
  | enum | fixed => cases hr
  | record hkind => exact hkind

/-- What a node that is no union is resolved to. -/
theorem Within.resolve (h : Within P schema decls enclosing node l)
    (hs : Sound P schema top decls) (hnode : ∀ members, node ≠ .arr members) :
    ∃ plain inner l', (Registry.ofSchema schema).resolve node enclosing = .ok (plain, inner) ∧
      Within P schema decls inner plain l' ∧ Plain inner plain ∧
      StandsFor top.declarations l l' ∧
      (plain = node ∧ l' = l ∨ typeName plain = "record") := by
  obtain ⟨plain, inner, l', hresolve, hresolves⟩ := h.inside.resolve hs.accepted hnode
  have hregular : l'.Regular := by
    obtain rfl | ⟨name, -, hlookup⟩ := hresolves.standsFor
    · exact h.regular
    · exact hs.regular.declared _ (mem_of_lookup? hlookup)
  obtain hsame | hnamed := hresolves.same_or_named
  · exact ⟨plain, inner, l', hresolve, ⟨hresolves.inside, hregular, hsame.1 ▸ h.holds⟩,
      hresolves.isPlain, hresolves.standsFor, .inl hsame⟩
  · obtain ⟨ms, rfl⟩ := hresolves.isPlain.isObj (not_primitive_kind hnamed)
    have hkind := hresolves.inside.kind_of_named hregular hnamed
    obtain ⟨-, -, -, -, -, hmem, -⟩ := hresolves.inside.fields hresolves.isPlain hkind
    exact ⟨.obj ms, inner, l', hresolve, ⟨hresolves.inside, hregular, hs.declared hmem⟩,
      hresolves.isPlain, hresolves.standsFor, .inr hkind⟩

/-- A primitive type, an array, or a record with its fields. -/
inductive Form (P : Json → Prop) (schema : Json) (decls : List (String × Json)) (inner : String) :
    Json → Layout → Prop
  | primitive {node : Json} {type : Primitive} {meaning : Option Meaning}
      (hkind : Primitive.ofName? (typeName node) = some type)
      (hmeaning : (∃ name, node = .str name ∧ meaning = none) ∨
        ∃ ms, node = .obj ms ∧ meaning = Layout.meaning? type ms) :
      Form P schema decls inner node (.primitive type meaning)
  | array {node : Json} {items : Layout} (hkind : typeName node = "array")
      (hitems : Within P schema decls inner (itemsOf node) items)
      (hsmall : (itemsOf node).nodeCount < node.nodeCount) :
      Form P schema decls inner node (.array items)
  | record {node : Json} {pieces : List Piece} (hkind : typeName node = "record")
      (hfields : fieldsOf node = pieces.map (·.node)) (hfield : ∀ p ∈ pieces, p.IsField)
      (hnames : (pieces.map fun p => nameOf p.node).Nodup)
      (hpieces : ∀ p ∈ pieces, Within P schema decls inner (typeOf p.node) p.layout)
      (hmem : (fullName node inner, node) ∈ decls) (hinner : (splitName (fullName node inner)).1 = inner) :
      Form P schema decls inner node (.record (fullName node inner) (pieces.map Piece.field))

/-- A plain node has one of three forms. -/
theorem Within.form (h : Within P schema decls inner node l) (hP : Hereditary P)
    (hplain : Plain inner node) : Form P schema decls inner node l := by
  obtain ⟨ds, -, hdescribes⟩ := h.inside.described
  have hregular := h.regular
  cases hdescribes with
  | name hp => exact .primitive hp (.inl ⟨_, rfl, rfl⟩)
  | annotated hp => exact .primitive hp (.inr ⟨_, rfl, rfl⟩)
  | reference hp =>
    obtain hobj | ⟨name', p, hname, hp'⟩ := hplain.alone
    · cases hobj
    · cases hname
      rw [hp] at hp'
      cases hp'
  | union =>
    obtain hobj | ⟨name, p, hname, -⟩ := hplain.alone
    · cases hobj
    · cases hname
  | map | enum | fixed => cases hregular
  | @array _ ms items l' _ hkind hitems _ =>
    have heq := itemsOf_eq hitems
    obtain ⟨l'', hl, hinside, hsmall⟩ := h.inside.items hplain hkind
    cases hl
    cases hregular with
    | array hregular =>
      exact .array hkind ⟨hinside, hregular, by rw [heq]; exact hP.items h.holds hkind hitems⟩ hsmall
  | @record _ ms _ hkind _ _ _ =>
    obtain ⟨pieces, hfields, hl, hfield, hpieces, hmem, hinner⟩ := h.inside.fields hplain hkind
    rw [hl] at hregular ⊢
    cases hregular with
    | record hnames hregular =>
      refine .record hkind hfields hfield (by rwa [List.map_map] at hnames) ?_ hmem hinner
      intro p hp
      have hmem : p.node ∈ fieldsOf (.obj ms) := by
        rw [hfields]
        exact List.mem_map_of_mem hp
      exact ⟨hpieces p hp, hregular _ (List.mem_map_of_mem (f := Piece.field) hp),
        hP.field h.holds hkind hmem⟩

end

end Schema
end AvroDocument
