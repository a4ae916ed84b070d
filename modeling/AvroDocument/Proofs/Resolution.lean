import AvroDocument.Proofs.Declarations
import AvroDocument.Proofs.Naming

/-!
# AvroDocument.Proofs.Resolution

The nodes of a schema that the binary library takes, and what they stand for.

* `Accepted`: a schema with a layout, and its declarations.
* `Inside`: a node somewhere in the schema, with its layout.
* `Inside.resolve`: the registry resolves every node but unions, to one of the layout that the node
  has or refers to.
-/

namespace AvroDocument
namespace Schema

/-! ## Namespaces -/

theorem fullName_namespaceOf (ms : List (String × Json)) (enclosing : String) :
    fullName (.obj ms) (namespaceOf (.obj ms) enclosing) = fullName (.obj ms) enclosing := by
  by_cases hdot : hasDot (textOf (.obj ms) "name") = true
  · simp only [fullName, hdot, if_true]
  · have hname : '.' ∉ (textOf (.obj ms) "name").toList := by simpa [hasDot] using hdot
    by_cases hns : (Json.obj ms).has "namespace" = true
    · simp only [fullName, hdot, hns, if_true]
    · by_cases hempty : enclosing = ""
      · subst hempty
        have hsplit := splitName_plain hname
        simp [fullName, namespaceOf, hdot, hns, hsplit]
      · have hsplit := splitName_dotted enclosing hname
        simp [fullName, namespaceOf, hdot, hns, hempty, hsplit]

theorem namespaceOf_namespaceOf (ms : List (String × Json)) (enclosing : String) :
    namespaceOf (.obj ms) (namespaceOf (.obj ms) enclosing) = namespaceOf (.obj ms) enclosing :=
  congrArg (fun name => (splitName name).1) (fullName_namespaceOf ms enclosing)

/-- The namespace inside a node that is no reference. -/
def innerOf (node : Json) (enclosing : String) : String :=
  if isNamed node then namespaceOf node enclosing else enclosing

theorem innerOf_named {ms : List (String × Json)} (h : namedKinds.contains (typeName (.obj ms)) = true)
    (enclosing : String) : innerOf (.obj ms) enclosing = namespaceOf (.obj ms) enclosing := by
  simp only [innerOf, isNamed, Json.isObj, h, Bool.and_self, if_true]

theorem innerOf_unnamed {ms : List (String × Json)}
    (h : namedKinds.contains (typeName (.obj ms)) = false) (enclosing : String) :
    innerOf (.obj ms) enclosing = enclosing := by
  simp only [innerOf, isNamed, h, Bool.and_false]
  rfl

variable {names : List String} {enclosing : String} {ms : List (String × Json)} {layout : Layout}
  {ds : List (String × Json)}

/-- A declaration is described in the namespace inside it as well. -/
theorem Describes.inner (h : Describes names enclosing (.obj ms) layout ds) :
    Describes names (innerOf (.obj ms) enclosing) (.obj ms) layout ds := by
  have hfull := fullName_namespaceOf ms enclosing
  cases h with
  | annotated h =>
    rw [innerOf_unnamed (not_named h)]
    exact .annotated h
  | array hkind hitems h =>
    rw [innerOf_unnamed (by rw [hkind]; rfl)]
    exact .array hkind hitems h
  | map hkind hvalues h =>
    rw [innerOf_unnamed (by rw [hkind]; rfl)]
    exact .map hkind hvalues h
  | enum hkind =>
    rw [innerOf_named (by rw [hkind]; rfl), ← hfull]
    exact .enum hkind
  | fixed hkind =>
    rw [innerOf_named (by rw [hkind]; rfl), ← hfull]
    exact .fixed hkind
  | record hkind hfields hfield h =>
    rw [innerOf_named (by rw [hkind]; rfl)]
    rw [← hfull] at h ⊢
    exact .record hkind hfields hfield h

/-! ## Accepted schemas -/

/-- A schema with a layout, and the declarations inside it. -/
structure Accepted (schema : Json) (layout : Layout) (decls : List (String × Json)) : Prop where
  describes : Describes (decls.map (·.1)) "" schema layout decls
  distinct : (decls.map (·.1)).Nodup

theorem accepted_of_ofSchema {schema : Json} (h : Layout.ofSchema schema = .ok layout) :
    ∃ decls, Accepted schema layout decls := by
  obtain ⟨after, hlays⟩ := laysOut_ofSchema h
  obtain ⟨ds, hadds, hdescribes⟩ := hlays.described
  have hafter : after = (ds.map (·.1)).reverse := by rw [hadds.names, List.append_nil]
  refine ⟨ds, hdescribes _ ?_, ?_⟩
  · intro name hname
    rw [hafter] at hname
    exact List.mem_reverse.mp hname
  · have hdistinct := hadds.fresh List.nodup_nil
    rw [hafter] at hdistinct
    exact (List.reverse_perm _).nodup_iff.mp hdistinct

/-- A node somewhere in a schema, inside a namespace, and its layout. -/
structure Inside (schema : Json) (decls : List (String × Json)) (enclosing : String) (node : Json)
    (layout : Layout) : Prop where
  small : node.nodeCount ≤ schema.nodeCount
  described : ∃ ds, ds ⊆ decls ∧ Describes (decls.map (·.1)) enclosing node layout ds

namespace Accepted

variable {schema : Json} {decls : List (String × Json)}

theorem inside (h : Accepted schema layout decls) : Inside schema decls "" schema layout :=
  ⟨Nat.le_refl _, decls, List.Subset.refl _, h.describes⟩

theorem registry_eq (h : Accepted schema layout decls) :
    Registry.ofSchema schema = Registry.declareAll [] decls := h.describes.collect_eq []

theorem lookup_registry (h : Accepted schema layout decls) {name : String} {node : Json}
    (hmem : (name, node) ∈ decls) : lookup? name (Registry.ofSchema schema) = some node := by
  rw [h.registry_eq]
  exact Registry.lookup_declareAll h.distinct [] _ hmem

/-- Two declarations of one name are the same. -/
theorem unique (h : Accepted schema layout decls) {name : String} {node node' : Json}
    (hmem : (name, node) ∈ decls) (hmem' : (name, node') ∈ decls) : node = node' := by
  have := h.lookup_registry hmem
  rw [h.lookup_registry hmem'] at this
  exact (Option.some.inj this).symm

theorem length_le (h : Accepted schema layout decls) : decls.length ≤ schema.nodeCount :=
  h.describes.length_le

/-- A name that is referred to stands for a declaration of that name with a layout. -/
theorem declaration (h : Accepted schema layout decls) {name : String}
    (hmem : name ∈ decls.map (·.1)) :
    ∃ ms enclosing l, (name, .obj ms) ∈ decls ∧ fullName (.obj ms) enclosing = name ∧
      namedKinds.contains (typeName (.obj ms)) = true ∧
      lookup? name layout.declarations = some l ∧ Inside schema decls enclosing (.obj ms) l := by
  rw [← h.describes.names_eq] at hmem
  obtain ⟨⟨_, l⟩, hd, rfl⟩ := List.mem_map.mp hmem
  obtain ⟨ms, enclosing, ds', hnode, hname, hnamed, hsub, hdescribes⟩ :=
    h.describes.declaration _ hd
  have hdistinct : (layout.declarations.map (·.1)).Nodup := by
    rw [h.describes.names_eq]
    exact h.distinct
  exact ⟨ms, enclosing, l, hnode, hname, hnamed, lookup?_of_mem hdistinct hd,
    h.describes.nodeCount_le _ hnode, ds', hsub, hdescribes⟩

end Accepted

/-! ## What a node stands for -/

/-- A node that is neither a union nor a reference, in the namespace inside it. -/
structure Plain (inner : String) (node : Json) : Prop where
  alone : node.isObj = true ∨ ∃ name p, node = .str name ∧ Primitive.ofName? name = some p
  inner_eq : innerOf node inner = inner

/-- Whether a layout stands for itself or for one that it refers to. -/
def StandsFor (types : Declarations) (layout plain : Layout) : Prop :=
  plain = layout ∨ ∃ name, layout = .reference name ∧ lookup? name types = some plain

section resolve

variable {schema node : Json} {decls : List (String × Json)} {l : Layout}

theorem innerOf_innerOf (ms : List (String × Json)) (enclosing : String) :
    innerOf (.obj ms) (innerOf (.obj ms) enclosing) = innerOf (.obj ms) enclosing := by
  by_cases h : isNamed (.obj ms) = true
  · simp only [innerOf, h, if_true, namespaceOf_namespaceOf]
  · simp only [innerOf, h]
    rfl

theorem resolve_reference {registry : Registry} {name : String} {declared : Json}
    (hp : Primitive.ofName? name = none)
    (h : lookup? (referenceName name enclosing) registry = some declared) :
    registry.resolve (.str name) enclosing =
      .ok (declared, namespaceOf declared (splitName (referenceName name enclosing)).1) := by
  have hprimitive : primitiveNames.contains name = false := by
    rw [Bool.eq_false_iff, Ne, isPrimitive_iff, hp]
    exact Bool.false_ne_true
  have hfind : registry.find? name enclosing = some declared := by
    rw [Registry.find?, h]
    rfl
  rw [Registry.resolve]
  simp only [hprimitive, hfind]
  rfl

theorem Inside.inner (h : Inside schema decls enclosing (.obj ms) l) :
    Inside schema decls (innerOf (.obj ms) enclosing) (.obj ms) l := by
  obtain ⟨ds, hsub, hdescribes⟩ := h.described
  exact ⟨h.small, ds, hsub, hdescribes.inner⟩

/-- What a node that is no union is resolved to: itself, or a declaration that it refers to. -/
structure Resolves (schema : Json) (decls : List (String × Json)) (types : Declarations)
    (node : Json) (l : Layout) (plain : Json) (inner : String) (l' : Layout) : Prop where
  isPlain : Plain inner plain
  inside : Inside schema decls inner plain l'
  standsFor : StandsFor types l l'
  same_or_named : plain = node ∧ l' = l ∨ namedKinds.contains (typeName plain) = true

/-- A node that is no union is resolved to a plain one. -/
theorem Inside.resolve (h : Inside schema decls enclosing node l)
    (ha : Accepted schema layout decls) (hnode : ∀ members, node ≠ .arr members) :
    ∃ plain inner l', (Registry.ofSchema schema).resolve node enclosing = .ok (plain, inner) ∧
      Resolves schema decls layout.declarations node l plain inner l' := by
  obtain ⟨ds, hsub, hdescribes⟩ := h.described
  cases node with
  | arr members => exact absurd rfl (hnode members)
  | obj ms =>
    exact ⟨.obj ms, innerOf (.obj ms) enclosing, l, rfl, ⟨.inl rfl, innerOf_innerOf ms enclosing⟩,
      h.inner, .inl rfl, .inl ⟨rfl, rfl⟩⟩
  | str name =>
    cases hdescribes with
    | @name _ _ p hp =>
      have hprimitive : primitiveNames.contains name = true := isPrimitive_iff.mpr (by rw [hp]; rfl)
      refine ⟨.str name, enclosing, _, ?_,
        ⟨.inr ⟨name, p, rfl, hp⟩, rfl⟩, h, .inl rfl, .inl ⟨rfl, rfl⟩⟩
      simp only [Registry.resolve, hprimitive, if_true]
    | reference hp hmem =>
      obtain ⟨ms, outer, l', hdecl, hname, hnamed, hlookup, hinside⟩ := ha.declaration hmem
      have hns : namespaceOf (.obj ms) (splitName (referenceName name enclosing)).1 =
          innerOf (.obj ms) outer := by
        rw [innerOf_named hnamed, ← hname]
        exact namespaceOf_namespaceOf ms outer
      refine ⟨.obj ms, innerOf (.obj ms) outer, l', ?_, ⟨.inl rfl, innerOf_innerOf ms outer⟩,
        hinside.inner, .inr ⟨_, rfl, hlookup⟩, .inr hnamed⟩
      rw [resolve_reference hp (ha.lookup_registry hdecl), hns]
  | null | bool | int | float | decimal => cases hdescribes

theorem Inside.resolved (h : Inside schema decls enclosing node l)
    (ha : Accepted schema layout decls) {plain : Json} {inner : String}
    (hr : (Registry.ofSchema schema).resolve node enclosing = .ok (plain, inner))
    (hkind : typeName plain ≠ "union") :
    ∃ l', Resolves schema decls layout.declarations node l plain inner l' := by
  have hnode : ∀ members, node ≠ .arr members := by
    rintro members rfl
    rw [Registry.resolve] at hr
    · cases hr
      exact hkind rfl
    · exact fun _ => Json.noConfusion
  obtain ⟨plain', inner', l', hresolve, hresolves⟩ := h.resolve ha hnode
  rw [hr] at hresolve
  cases hresolve
  exact ⟨l', hresolves⟩

end resolve

/-! ## Nodes inside a node -/

section below

variable {schema node : Json} {decls : List (String × Json)} {l : Layout} {inner : String}

theorem Inside.null (schema : Json) (decls : List (String × Json)) (enclosing : String) :
    Inside schema decls enclosing (.str "null") (.primitive .null none) :=
  ⟨schema.nodeCount_pos, [], List.nil_subset _, .name rfl⟩

theorem typeName_primitive {name : String} : typeName (.str name) = name := rfl

/-- A plain node of a kind that is no primitive is an object. -/
theorem Plain.isObj (h : Plain inner node) (hkind : Primitive.ofName? (typeName node) = none) :
    ∃ ms, node = .obj ms := by
  rcases h.alone with hobj | ⟨name, p, rfl, hp⟩
  · cases node with
    | obj ms => exact ⟨ms, rfl⟩
    | _ => cases hobj
  · rw [typeName_primitive, hp] at hkind
    cases hkind

/-- The members of a union. -/
theorem Inside.members {members : List Json} (h : Inside schema decls enclosing (.arr members) l) :
    ∃ pieces : List Piece, members = pieces.map (·.node) ∧ l = .union (pieces.map (·.layout)) ∧
      ∀ p ∈ pieces, Inside schema decls enclosing p.node p.layout := by
  obtain ⟨ds, hsub, hdescribes⟩ := h.described
  have hsmall := h.small
  cases hdescribes with
  | @union _ pieces hpieces =>
    refine ⟨pieces, rfl, rfl, fun p hp => ⟨?_, p.declared, ?_, hpieces p hp⟩⟩
    · have := Json.nodeCount_le_items (List.mem_map_of_mem (f := (·.node)) hp)
      simp only [Json.nodeCount] at hsmall
      omega
    · exact fun d hd => hsub (List.mem_flatMap.mpr ⟨p, hp, hd⟩)

/-- The type that a union is without null. -/
theorem Inside.nonNull (h : Inside schema decls enclosing node l) :
    ∃ l', Inside schema decls enclosing (nonNull node) l' := by
  cases node with
  | arr members =>
    obtain ⟨pieces, rfl, rfl, hpieces⟩ := h.members
    simp only [Schema.nonNull]
    cases hfind : (pieces.map (·.node)).find? fun m => !isNullMember m with
    | none => exact ⟨_, .null schema decls enclosing⟩
    | some m =>
      obtain ⟨p, hp, rfl⟩ := List.mem_map.mp (List.mem_of_find?_eq_some hfind)
      exact ⟨_, hpieces p hp⟩
  | _ => exact ⟨l, h⟩

/-- The items of an array. -/
theorem Inside.items (h : Inside schema decls inner node l) (hplain : Plain inner node)
    (hkind : typeName node = "array") :
    ∃ l', l = .array l' ∧ Inside schema decls inner (itemsOf node) l' ∧
      (itemsOf node).nodeCount < node.nodeCount := by
  obtain ⟨ms, rfl⟩ := hplain.isObj (by rw [hkind]; rfl)
  obtain ⟨ds, hsub, hdescribes⟩ := h.described
  have hsmall := h.small
  cases hdescribes with
  | annotated hp => exact absurd hkind (not_kind hp rfl)
  | @array _ _ items l' _ _ hitems hdescribes =>
    have hlt := Json.nodeCount_lookup hitems
    rw [itemsOf_eq hitems]
    exact ⟨l', rfl, ⟨by omega, ds, hsub, hdescribes⟩, hlt⟩
  | map hother | enum hother | fixed hother | record hother =>
    rw [hkind] at hother
    exact absurd hother (by decide)

/-- The fields of a record, which is declared inside the schema. -/
theorem Inside.fields (h : Inside schema decls inner node l) (hplain : Plain inner node)
    (hkind : typeName node = "record") :
    ∃ pieces : List Piece, fieldsOf node = pieces.map (·.node) ∧
      l = .record (fullName node inner) (pieces.map Piece.field) ∧ (∀ p ∈ pieces, p.IsField) ∧
      (∀ p ∈ pieces, Inside schema decls inner (typeOf p.node) p.layout) ∧
      (fullName node inner, node) ∈ decls ∧ (splitName (fullName node inner)).1 = inner := by
  obtain ⟨ms, rfl⟩ := hplain.isObj (by rw [hkind]; rfl)
  obtain ⟨ds, hsub, hdescribes⟩ := h.described
  have hsmall := h.small
  have hinner : (splitName (fullName (.obj ms) inner)).1 = inner := by
    have := hplain.inner_eq
    rwa [innerOf_named (by rw [hkind]; rfl)] at this
  cases hdescribes with
  | annotated hp => exact absurd hkind (not_kind hp rfl)
  | @record _ _ pieces _ hfields hfield hpieces =>
    rw [hinner] at hpieces
    refine ⟨pieces, hfields, rfl, hfield, fun p hp => ⟨?_, p.declared, ?_, hpieces p hp⟩,
      hsub List.mem_cons_self, hinner⟩
    · have hfield : p.node ∈ fieldsOf (.obj ms) := by
        rw [hfields]
        exact List.mem_map_of_mem hp
      have := nodeCount_field hfield
      omega
    · exact fun d hd => hsub (List.mem_cons_of_mem _ (List.mem_flatMap.mpr ⟨p, hp, hd⟩))
  | map hother | enum hother | fixed hother | array hother =>
    rw [hkind] at hother
    exact absurd hother (by decide)

end below

end Schema
end AvroDocument
