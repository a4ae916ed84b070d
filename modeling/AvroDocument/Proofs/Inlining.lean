import AvroDocument.Proofs.NormalForms

/-!
# AvroDocument.Proofs.Inlining

References replaced by what they stand for.

* `Schema.StandsIn`: the types inside a schema, with the namespaces in which they stand.
* `Schema.Inlines`: a schema in which references were replaced by copies of declarations under their
  full names.
* `Schema.Counterpart`: what stands for a declaration in such a schema.
* `Inlines.redeclares`: such a schema declares the same names, and nothing else.
-/

namespace AvroDocument

namespace Json

/-- An object with another value under a key. -/
def put (j : Json) (key : String) (value : Json) : Json :=
  match j with
  | obj ms => obj (assign key value ms)
  | j => j

theorem get?_put {j : Json} {key other : String} {old : Json} (h : j.get? other = some old)
    (value : Json) (k : String) :
    (j.put key value).get? k = if k = key then some value else j.get? k := by
  cases j with
  | obj ms => simp only [put, get?, members, lookup?_assign]
  | _ => cases h

end Json

namespace Schema

/-! ## Where types stand -/

/-- A type inside a schema, and the namespace in which it stands. -/
inductive StandsIn (schema : Json) : String → Json → Prop
  | whole : StandsIn schema "" schema
  | inner {enclosing : String} {node type : Json} (h : StandsIn schema enclosing node)
      (htype : type ∈ innerTypes node) : StandsIn schema (innerOf node enclosing) type

theorem StandsIn.typeIn {schema node : Json} {enclosing : String}
    (h : StandsIn schema enclosing node) : TypeIn schema node := by
  induction h with
  | whole => exact .whole
  | inner _ htype ih => exact ih.inner htype

section inner

variable {names : List String} {enclosing : String} {node type : Json} {ms : List (String × Json)}

theorem innerTypes_array {items : Json} (hkind : typeName (.obj ms) = "array")
    (hitems : lookup? "items" ms = some items) : innerTypes (.obj ms) = [items] := by
  simp [innerTypes, hkind, hitems]

theorem innerTypes_record (hkind : typeName (.obj ms) = "record") :
    innerTypes (.obj ms) = (fieldsOf (.obj ms)).map typeOf := by
  simp [innerTypes, hkind]

/-- Types directly inside a described node are described, in the namespace inside it. -/
theorem Describes.innerType {layout : Layout} {ds : List (String × Json)}
    (h : Describes names enclosing node layout ds) (htype : type ∈ innerTypes node) :
    ∃ layout' ds', ds' ⊆ ds ∧ Describes names (innerOf node enclosing) type layout' ds' := by
  cases h with
  | name | reference => cases htype
  | @annotated _ ms p h =>
    have harray : typeName (.obj ms) ≠ "array" := not_kind h rfl
    have hmap : typeName (.obj ms) ≠ "map" := not_kind h rfl
    have hrecord : typeName (.obj ms) ≠ "record" := not_kind h rfl
    simp [innerTypes, harray, hmap, hrecord] at htype
  | enum hkind | fixed hkind =>
    simp [innerTypes, hkind] at htype
  | array hkind hitems h =>
    rw [innerTypes_array hkind hitems, List.mem_singleton] at htype
    rw [innerOf_unnamed (by rw [hkind]; rfl), htype]
    exact ⟨_, _, List.Subset.refl _, h⟩
  | map hkind hvalues h =>
    simp only [innerTypes, hkind, hvalues] at htype
    rw [innerOf_unnamed (by rw [hkind]; rfl), List.mem_singleton.mp htype]
    exact ⟨_, _, List.Subset.refl _, h⟩
  | union h =>
    obtain ⟨p, hp, rfl⟩ := List.mem_map.mp htype
    exact ⟨_, _, fun d hd => List.mem_flatMap.mpr ⟨p, hp, hd⟩, h p hp⟩
  | record hkind hfields _ h =>
    rw [innerTypes_record hkind, hfields, List.map_map] at htype
    obtain ⟨p, hp, rfl⟩ := List.mem_map.mp htype
    rw [innerOf_named (by rw [hkind]; rfl)]
    exact ⟨_, _, fun d hd => List.mem_cons_of_mem _ (List.mem_flatMap.mpr ⟨p, hp, hd⟩), h p hp⟩

/-- Types directly inside an allowed node are allowed. -/
theorem Allowed.innerType {registry : Registry} (h : Allowed registry enclosing node)
    (htype : type ∈ innerTypes node) : Allowed registry (innerOf node enclosing) type := by
  cases h with
  | name | reference => cases htype
  | @annotated _ ms h =>
    obtain ⟨p, hp⟩ := Option.isSome_iff_exists.mp (isPrimitive_iff.mp h)
    have harray : typeName (.obj ms) ≠ "array" := not_kind hp rfl
    have hmap : typeName (.obj ms) ≠ "map" := not_kind hp rfl
    have hrecord : typeName (.obj ms) ≠ "record" := not_kind hp rfl
    simp [innerTypes, harray, hmap, hrecord] at htype
  | @array _ ms hkind h =>
    rw [innerOf_unnamed (by rw [hkind]; rfl)]
    simp only [innerTypes, hkind] at htype
    exact itemsOf_eq (Option.mem_toList.mp htype) ▸ h
  | union _ _ h => exact h _ htype
  | record hkind _ _ h =>
    rw [innerTypes_record hkind] at htype
    obtain ⟨f, hf, rfl⟩ := List.mem_map.mp htype
    rw [innerOf_named (by rw [hkind]; rfl)]
    exact h f hf

end inner

section accepted

variable {schema node : Json} {enclosing : String} {top : Layout} {decls : List (String × Json)}

theorem StandsIn.described (h : StandsIn schema enclosing node) (ha : Accepted schema top decls) :
    ∃ layout ds, ds ⊆ decls ∧ Describes (decls.map (·.1)) enclosing node layout ds := by
  induction h with
  | whole => exact ⟨top, decls, List.Subset.refl _, ha.describes⟩
  | inner _ htype ih =>
    obtain ⟨layout, ds, hsub, hdescribes⟩ := ih
    obtain ⟨layout', ds', hsub', hdescribes'⟩ := hdescribes.innerType htype
    exact ⟨layout', ds', fun _ hd => hsub (hsub' hd), hdescribes'⟩

theorem StandsIn.allowed (h : StandsIn schema enclosing node)
    (hallowed : Allowed (Registry.ofSchema schema) "" schema) :
    Allowed (Registry.ofSchema schema) enclosing node := by
  induction h with
  | whole => exact hallowed
  | inner _ htype ih => exact ih.innerType htype

theorem StandsIn.item {ms : List (String × Json)} {items : Json}
    (h : StandsIn schema enclosing (.obj ms)) (hkind : typeName (.obj ms) = "array")
    (hitems : lookup? "items" ms = some items) : StandsIn schema enclosing items := by
  have hinner := h.inner (innerTypes_array hkind hitems ▸ List.mem_singleton_self _)
  rwa [innerOf_unnamed (by rw [hkind]; rfl)] at hinner

theorem StandsIn.field {ms : List (String × Json)} {f : Json}
    (h : StandsIn schema enclosing (.obj ms)) (hkind : typeName (.obj ms) = "record")
    (hf : f ∈ fieldsOf (.obj ms)) :
    StandsIn schema (namespaceOf (.obj ms) enclosing) (typeOf f) := by
  have hinner := h.inner (innerTypes_record hkind ▸ List.mem_map_of_mem hf)
  rwa [innerOf_named (by rw [hkind]; rfl)] at hinner

/-- Declarations stand somewhere in the schema, under their full names. -/
theorem Describes.standsIn {names : List String} {layout : Layout} {ds : List (String × Json)}
    (h : Describes names enclosing node layout ds) (hs : StandsIn schema enclosing node) :
    ∀ d ∈ ds, ∃ ms outer, d.2 = .obj ms ∧ namedKinds.contains (typeName (.obj ms)) = true ∧
      fullName (.obj ms) outer = d.1 ∧ StandsIn schema outer (.obj ms) := by
  induction h with
  | name | reference | annotated => exact fun _ hd => nomatch hd
  | @enum enclosing ms _ hkind | @fixed enclosing ms _ _ hkind =>
    intro d hd
    obtain rfl := List.mem_singleton.mp hd
    exact ⟨ms, enclosing, rfl, by rw [hkind]; rfl, rfl, hs⟩
  | array hkind hitems _ ih => exact ih (hs.item hkind hitems)
  | @map _ ms values _ _ hkind hvalues _ ih =>
    have hinner : StandsIn schema _ values :=
      hs.inner (by simp [innerTypes, hkind, hvalues])
    rw [innerOf_unnamed (by rw [hkind]; rfl)] at hinner
    exact ih hinner
  | union _ ih =>
    intro d hd
    obtain ⟨p, hp, hd⟩ := List.mem_flatMap.mp hd
    exact ih p hp (hs.inner (List.mem_map_of_mem hp)) d hd
  | @record enclosing ms pieces hkind hfields _ _ ih =>
    intro d hd
    obtain rfl | hd := List.mem_cons.mp hd
    · exact ⟨ms, enclosing, rfl, by rw [hkind]; rfl, rfl, hs⟩
    · obtain ⟨p, hp, hd⟩ := List.mem_flatMap.mp hd
      exact ih p hp (hs.field hkind (hfields ▸ List.mem_map_of_mem hp)) d hd

end accepted

/-! ## Copies of declarations -/

/-- A copy of a declaration that carries its full name, wherever it stands. -/
def copyOf (name : String) : Json → Json
  | .obj ms => .obj (assign "name" (.str name) (ms.filter fun m => m.1 ≠ "namespace"))
  | node => node

/-- A node in a namespace of a schema, and the same node with references replaced by copies of what
they stand for. -/
inductive Inlines (registry : Registry) : String → Json → Json → Prop
  | same {enclosing : String} {node : Json} : Inlines registry enclosing node node
  | reference {enclosing name : String} {declared : Json}
      (hname : primitiveNames.contains name = false)
      (h : registry.find? name enclosing = some declared) :
      Inlines registry enclosing (.str name) (copyOf (referenceName name enclosing) declared)
  | union {enclosing : String} {pairs : List (Json × Json)}
      (h : ∀ p ∈ pairs, Inlines registry enclosing p.1 p.2) :
      Inlines registry enclosing (.arr (pairs.map (·.1))) (.arr (pairs.map (·.2)))
  | array {enclosing : String} {node items items' : Json} (hkind : typeName node = "array")
      (hitems : node.get? "items" = some items) (h : Inlines registry enclosing items items') :
      Inlines registry enclosing node (node.put "items" items')
  | record {enclosing : String} {node : Json} {pairs : List (Json × Json)}
      (hkind : typeName node = "record")
      (hfields : node.get? "fields" = some (.arr (pairs.map (·.1))))
      (h : ∀ p ∈ pairs, Inlines registry (namespaceOf node enclosing) (typeOf p.1) p.2) :
      Inlines registry enclosing node
        (node.put "fields" (.arr (pairs.map fun p => p.1.put "type" p.2)))

/-! ## Declarations and what stands for them -/

section counterpart

variable {registry : Registry} {enclosing name : String} {node : Json}
  {ms ns : List (String × Json)}

/-- A list, as pairs of its items with themselves. -/
theorem map_diagonal {α : Type} (l : List α) :
    l = (l.map fun a => (a, a)).map (·.1) ∧ l = (l.map fun a => (a, a)).map (·.2) := by
  rw [List.map_map, List.map_map]
  exact ⟨(List.map_id l).symm, (List.map_id l).symm⟩

theorem sameBut_put {j old : Json} {key other : String} (h : j.get? other = some old)
    (value : Json) : SameBut key j (j.put key value) := fun k hk => by
  rw [Json.get?_put h, if_neg hk]

theorem typeOf_put {f old : Json} {other : String} (h : f.get? other = some old) (type : Json) :
    typeOf (f.put "type" type) = type := by
  rw [typeOf, Json.getD, Json.get?_put h, if_pos rfl]
  rfl

theorem SameBut.typeName_eq {key : String} (h : SameBut key (.obj ms) (.obj ns))
    (hkey : "type" ≠ key) : typeName (.obj ns) = typeName (.obj ms) := by
  have htype : lookup? "type" ns = lookup? "type" ms := h "type" hkey
  rw [typeName, typeName, typeNode, typeNode, htype]

theorem SameBut.fullName_eq (h : SameBut "fields" (.obj ms) (.obj ns)) (enclosing : String) :
    fullName (.obj ns) enclosing = fullName (.obj ms) enclosing := by
  have hname : textOf (.obj ns) "name" = textOf (.obj ms) "name" := by
    rw [textOf, textOf, h "name" (by decide)]
  have htext : textOf (.obj ns) "namespace" = textOf (.obj ms) "namespace" := by
    rw [textOf, textOf, h "namespace" (by decide)]
  have hhas : (Json.obj ns).has "namespace" = (Json.obj ms).has "namespace" := by
    rw [Json.has, Json.has, h "namespace" (by decide)]
  simp only [fullName, hname, htext, hhas]

/-- A record that declares what another one does, with references inlined. -/
structure Counterpart (registry : Registry) (name : String) (declared declared' : Json) : Prop where
  isRecord : ∃ ns, declared' = .obj ns ∧ typeName (.obj ns) = "record"
  fullName_eq : ∀ enclosing, fullName declared enclosing = name →
    hasDot name = true ∨ enclosing = "" → fullName declared' enclosing = name
  fields : ∃ pairs : List (Json × Json), fieldsOf declared = pairs.map (·.1) ∧
    fieldsOf declared' = pairs.map (·.2) ∧ ∀ p ∈ pairs, SameBut "type" p.1 p.2 ∧
      Inlines registry (splitName name).1 (typeOf p.1) (typeOf p.2)

theorem Counterpart.refl (hkind : typeName (.obj ms) = "record") (name : String) :
    Counterpart registry name (.obj ms) (.obj ms) where
  isRecord := ⟨ms, rfl, hkind⟩
  fullName_eq _ h _ := h
  fields := by
    obtain ⟨hfst, hsnd⟩ := map_diagonal (fieldsOf (.obj ms))
    exact ⟨_, hfst, hsnd, List.forall_mem_map.mpr fun f _ => ⟨fun _ _ => rfl, .same⟩⟩

/-- A copy says what the declaration says but for its name. -/
theorem get?_copyOf {key : String} (hname : key ≠ "name") (hnamespace : key ≠ "namespace") :
    (copyOf name (.obj ms)).get? key = (Json.obj ms).get? key := by
  show lookup? key (assign _ _ _) = lookup? key ms
  rw [lookup?_assign, if_neg hname, lookup_filter hnamespace]

theorem fieldsOf_copyOf : fieldsOf (copyOf name (.obj ms)) = fieldsOf (.obj ms) := by
  rw [fieldsOf, fieldsOf, Json.getD, Json.getD, get?_copyOf (by decide) (by decide)]

theorem typeName_copyOf : typeName (copyOf name (.obj ms)) = typeName (.obj ms) := by
  have htype : (copyOf name (.obj ms)).get? "type" = (Json.obj ms).get? "type" :=
    get?_copyOf (by decide) (by decide)
  exact congrArg (fun j => ((j.getD (.str "")).text?).getD "") htype

theorem fullName_copyOf (h : hasDot name = true ∨ enclosing = "") :
    fullName (copyOf name (.obj ms)) enclosing = name := by
  have hget : (copyOf name (.obj ms)).get? "name" = some (.str name) := by
    show lookup? "name" (assign _ _ _) = _
    rw [lookup?_assign, if_pos rfl]
  have hnamespace : (copyOf name (.obj ms)).has "namespace" = false := by
    show (lookup? "namespace" (assign _ _ _)).isSome = false
    rw [lookup?_assign, if_neg (by decide), Option.isSome_eq_false_iff,
      Option.isNone_iff_eq_none, lookup?_eq_none]
    simp
  have htext : textOf (copyOf name (.obj ms)) "name" = name := by
    rw [textOf, hget]
    rfl
  show (if hasDot (textOf (copyOf name (.obj ms)) "name") = true then _ else _) = _
  rw [htext]
  obtain hdot | rfl := h
  · rw [if_pos hdot]
  · split
    · rfl
    · simp only [hnamespace]
      rfl

theorem Counterpart.copy (hkind : typeName (.obj ms) = "record") (name : String) :
    Counterpart registry name (.obj ms) (copyOf name (.obj ms)) where
  isRecord := ⟨_, rfl, typeName_copyOf.trans hkind⟩
  fullName_eq _ _ h := fullName_copyOf h
  fields := by
    rw [fieldsOf_copyOf]
    exact (Counterpart.refl hkind name).fields

/-- A reference in a namespace has a dot, or else the namespace is the empty one. -/
theorem hasDot_referenceName (name enclosing : String) :
    hasDot (referenceName name enclosing) = true ∨ enclosing = "" := by
  rw [referenceName]
  split
  · exact .inl (by simp [hasDot])
  · rename_i h
    by_cases hempty : enclosing = ""
    · exact .inr hempty
    · exact .inl (by simpa [hempty] using h)

/-- A record stands for itself where references in it were inlined. -/
theorem Inlines.counterpart (h : Inlines registry enclosing (.obj ms) node)
    (hkind : typeName (.obj ms) = "record")
    (hnamed : ∀ f ∈ fieldsOf (.obj ms), f.has "name" = true) :
    Counterpart registry (fullName (.obj ms) enclosing) (.obj ms) node ∧
      fullName node enclosing = fullName (.obj ms) enclosing := by
  generalize hnode : Json.obj ms = original at h
  cases h with
  | same =>
    subst hnode
    exact ⟨.refl hkind _, rfl⟩
  | reference => cases hnode
  | union => cases hnode
  | array harray =>
    subst hnode
    exact absurd (hkind.symm.trans harray) (by decide)
  | @record _ _ pairs _ hfields h =>
    subst hnode
    have hsame : SameBut "fields" (.obj ms)
        ((Json.obj ms).put "fields" (.arr (pairs.map fun p => p.1.put "type" p.2))) :=
      sameBut_put hfields _
    have hfieldsOf : fieldsOf (.obj ms) = pairs.map (·.1) := fieldsOf_arr hfields
    have hget : ∀ p ∈ pairs, ∃ old, p.1.get? "name" = some old := fun p hp =>
      Option.isSome_iff_exists.mp (hnamed p.1 (hfieldsOf ▸ List.mem_map_of_mem hp))
    refine ⟨⟨⟨_, rfl, (hsame.typeName_eq (by decide)).trans hkind⟩, fun outer hname _ => ?_,
      pairs.map fun p => (p.1, p.1.put "type" p.2), ?_, ?_, ?_⟩, hsame.fullName_eq enclosing⟩
    · exact (hsame.fullName_eq outer).trans hname
    · rw [hfieldsOf, List.map_map]
      rfl
    · rw [List.map_map]
      refine fieldsOf_arr ?_
      exact (Json.get?_put hfields _ _).trans (if_pos rfl)
    · refine List.forall_mem_map.mpr fun p hp => ?_
      obtain ⟨old, hold⟩ := hget p hp
      refine ⟨sameBut_put hold p.2, ?_⟩
      rw [typeOf_put hold]
      exact h p hp

end counterpart

/-! ## What the inlined schema declares -/

section declarations

variable {schema node node' : Json} {enclosing : String} {top layout : Layout}
  {decls ds : List (String × Json)}

/-- The declarations of a schema whose types are all supported are records in it. -/
theorem Accepted.declared_record (ha : Accepted schema top decls)
    (hallowed : Allowed (Registry.ofSchema schema) "" schema) {name : String}
    (hmem : name ∈ decls.map (·.1)) :
    ∃ ms outer, (name, .obj ms) ∈ decls ∧ typeName (.obj ms) = "record" ∧
      fullName (.obj ms) outer = name ∧ StandsIn schema outer (.obj ms) := by
  obtain ⟨⟨name, declared⟩, hd, rfl⟩ := List.mem_map.mp hmem
  obtain ⟨ms, outer, rfl, hnamed, hname, hs⟩ := ha.describes.standsIn .whole _ hd
  refine ⟨ms, outer, hd, ?_, hname, hs⟩
  obtain hprimitive | harray | hrecord := (hs.allowed hallowed).kind
  · rw [(not_primitive_named hnamed).1] at hprimitive
    cases hprimitive
  · rw [harray] at hnamed
    exact absurd hnamed (by decide)
  · exact hrecord

/-- What a reference in an accepted schema stands for. -/
theorem StandsIn.reference {name : String} (hs : StandsIn schema enclosing (.str name))
    (ha : Accepted schema top decls) (hallowed : Allowed (Registry.ofSchema schema) "" schema)
    (hname : primitiveNames.contains name = false) :
    ∃ ms outer, (referenceName name enclosing, .obj ms) ∈ decls ∧ typeName (.obj ms) = "record" ∧
      fullName (.obj ms) outer = referenceName name enclosing ∧
      StandsIn schema outer (.obj ms) ∧
      (Registry.ofSchema schema).find? name enclosing = some (.obj ms) := by
  obtain ⟨layout, ds, -, hdescribes⟩ := hs.described ha
  cases hdescribes with
  | name hp =>
    rw [isPrimitive_iff.mpr (Option.isSome_iff_exists.mpr ⟨_, hp⟩)] at hname
    cases hname
  | reference _ hmem =>
    obtain ⟨ms, outer, hd, hkind, hfull, hs⟩ := ha.declared_record hallowed hmem
    refine ⟨ms, outer, hd, hkind, hfull, hs, ?_⟩
    rw [Registry.find?, ha.lookup_registry hd]
    rfl

/-- Whether declarations are those of a schema, with references inlined. -/
def Replaces (schema : Json) (decls ds : List (String × Json)) : Prop :=
  ∀ d ∈ ds, ∃ declared, (d.1, declared) ∈ decls ∧
    Counterpart (Registry.ofSchema schema) d.1 declared d.2

theorem Replaces.cons {name full : String} {declared : Json} (hname : full = name)
    (hmem : (name, declared) ∈ decls)
    (hcounterpart : Counterpart (Registry.ofSchema schema) name declared node)
    (h : Replaces schema decls ds) : Replaces schema decls ((full, node) :: ds) := by
  subst hname
  exact List.forall_mem_cons.mpr ⟨⟨declared, hmem, hcounterpart⟩, h⟩

theorem replaces_flatMap {α : Type} {l : List α} {f : α → List (String × Json)}
    (h : ∀ a ∈ l, Replaces schema decls (f a)) : Replaces schema decls (l.flatMap f) := by
  intro d hd
  obtain ⟨a, ha, hd⟩ := List.mem_flatMap.mp hd
  exact h a ha d hd

/-- The declarations of a schema replace themselves. -/
theorem replaces_self (ha : Accepted schema top decls)
    (hallowed : Allowed (Registry.ofSchema schema) "" schema) (hsub : ds ⊆ decls) :
    Replaces schema decls ds := by
  intro d hd
  obtain ⟨ms, outer, hmem, hkind, -, -⟩ :=
    ha.declared_record hallowed (List.mem_map_of_mem (hsub hd))
  rw [ha.unique (hsub hd) hmem]
  exact ⟨_, hmem, .refl hkind _⟩

instance : Inhabited Piece := ⟨⟨.null, none, .primitive .null none, []⟩⟩

theorem StandsIn.items {ms : List (String × Json)} (hs : StandsIn schema enclosing (.obj ms))
    (ha : Accepted schema top decls) (hkind : typeName (.obj ms) = "array") :
    StandsIn schema enclosing (itemsOf (.obj ms)) := by
  obtain ⟨layout, ds, -, hd⟩ := hs.described ha
  cases hd with
  | annotated hp => exact absurd hkind (not_kind hp rfl)
  | map hother | enum hother | fixed hother | record hother =>
    exact absurd (hkind.symm.trans hother) (by decide)
  | @array _ _ items _ _ _ hitems _ =>
    exact itemsOf_eq hitems ▸ hs.item hkind hitems

theorem StandsIn.declared {ms : List (String × Json)} (hs : StandsIn schema enclosing (.obj ms))
    (ha : Accepted schema top decls) (hkind : typeName (.obj ms) = "record") :
    (fullName (.obj ms) enclosing, .obj ms) ∈ decls := by
  obtain ⟨layout, ds, hsub, hd⟩ := hs.described ha
  cases hd with
  | annotated hp => exact absurd hkind (not_kind hp rfl)
  | array hother | map hother | enum hother | fixed hother =>
    exact absurd (hkind.symm.trans hother) (by decide)
  | record => exact hsub List.mem_cons_self

/-- Two lists over the same nodes go together. -/
theorem zip_pieces {pieces : List Piece} {pairs : List (Json × Json)}
    (h : pieces.map (·.node) = pairs.map (·.1)) :
    ∃ zs : List (Piece × Json),
      pieces = zs.map (·.1) ∧ pairs = zs.map fun z => (z.1.node, z.2) := by
  induction pieces generalizing pairs with
  | nil =>
    obtain rfl := List.map_eq_nil_iff.mp h.symm
    exact ⟨[], rfl, rfl⟩
  | cons piece pieces ih =>
    cases pairs with
    | nil => cases h
    | cons pair pairs =>
      obtain ⟨hnode, hrest⟩ := List.cons.inj h
      obtain ⟨zs, rfl, rfl⟩ := ih hrest
      have hpair : pair = (piece.node, pair.2) := by rw [show piece.node = pair.1 from hnode]
      exact ⟨(piece, pair.2) :: zs, rfl, congrArg (· :: _) hpair⟩

theorem names_flatMap {α : Type} {l : List α} {f g : α → List (String × Json)}
    (h : ∀ a ∈ l, (f a).map (·.1) ⊆ (g a).map (·.1)) :
    (l.flatMap f).map (·.1) ⊆ (l.flatMap g).map (·.1) := by
  intro name hname
  rw [List.map_flatMap, List.mem_flatMap] at hname ⊢
  obtain ⟨a, ha, hname⟩ := hname
  exact ⟨a, ha, h a ha hname⟩

/-- Whether a node declares what some declarations do, and nothing that the schema does not
declare. -/
def Redeclares (schema : Json) (decls : List (String × Json)) (enclosing : String) (node' : Json)
    (ds : List (String × Json)) : Prop :=
  ∃ layout' ds', Describes (decls.map (·.1)) enclosing node' layout' ds' ∧
    Replaces schema decls ds' ∧ ds.map (·.1) ⊆ ds'.map (·.1)

theorem redeclares_copy (ha : Accepted schema top decls)
    (hallowed : Allowed (Registry.ofSchema schema) "" schema) {name outer : String}
    {ms : List (String × Json)} (hmem : (name, .obj ms) ∈ decls)
    (hkind : typeName (.obj ms) = "record") (hname : fullName (.obj ms) outer = name)
    (hs : StandsIn schema outer (.obj ms)) (hdot : hasDot name = true ∨ enclosing = "") :
    Redeclares schema decls enclosing (copyOf name (.obj ms)) [] := by
  obtain ⟨layout, ds, hsub, hd⟩ := hs.described ha
  have hcopy : fullName (copyOf name (.obj ms)) enclosing = name := fullName_copyOf hdot
  cases hd with
  | annotated hp => exact absurd hkind (not_kind hp rfl)
  | array hother | map hother | enum hother | fixed hother =>
    exact absurd (hkind.symm.trans hother) (by decide)
  | record _ hfields hfield hpieces =>
    rw [hname, ← hcopy] at hpieces
    refine ⟨_, _, .record (typeName_copyOf.trans hkind) (fieldsOf_copyOf.trans hfields) hfield
      hpieces, .cons hcopy hmem (.copy hkind _) ?_, List.nil_subset _⟩
    exact replaces_self ha hallowed fun d hd => hsub (List.mem_cons_of_mem _ hd)

theorem redeclares_union {zs : List (Piece × Json)}
    (h : ∀ z ∈ zs, Redeclares schema decls enclosing z.2 z.1.declared) :
    Redeclares schema decls enclosing (.arr (zs.map (·.2)))
      ((zs.map (·.1)).flatMap (·.declared)) := by
  have hpieces : ∀ z ∈ zs, ∃ p : Piece, p.node = z.2 ∧
      Describes (decls.map (·.1)) enclosing p.node p.layout p.declared ∧
      Replaces schema decls p.declared ∧ z.1.declared.map (·.1) ⊆ p.declared.map (·.1) := by
    intro z hz
    obtain ⟨l, ds, hd, hreplaces, hnames⟩ := h z hz
    exact ⟨⟨z.2, none, l, ds⟩, rfl, hd, hreplaces, hnames⟩
  obtain ⟨found, hfound⟩ := exists_forall_mem hpieces
  have hnodes : zs.map (·.2) = (zs.map found).map (·.node) := by
    rw [List.map_map]
    exact List.map_congr_left fun z hz => (hfound z hz).1.symm
  rw [hnodes]
  refine ⟨_, _, .union (List.forall_mem_map.mpr fun z hz => (hfound z hz).2.1), ?_, ?_⟩
  · rw [List.flatMap_map]
    exact replaces_flatMap fun z hz => (hfound z hz).2.2.1
  · rw [List.flatMap_map, List.flatMap_map]
    exact names_flatMap fun z hz => (hfound z hz).2.2.2

/-- A record whose fields have other types, which declare what the types did. -/
theorem redeclares_record {zs : List (Piece × Json)} {ms ns : List (String × Json)}
    (hmem : (fullName (.obj ms) enclosing, .obj ms) ∈ decls)
    (hcounterpart : Counterpart (Registry.ofSchema schema) (fullName (.obj ms) enclosing) (.obj ms)
      (.obj ns))
    (hkind : typeName (.obj ns) = "record")
    (hname : fullName (.obj ns) enclosing = fullName (.obj ms) enclosing)
    (hfields : fieldsOf (.obj ns) = zs.map fun z => z.1.node.put "type" z.2)
    (hfield : ∀ z ∈ zs, z.1.IsField)
    (h : ∀ z ∈ zs, Redeclares schema decls (namespaceOf (.obj ms) enclosing) z.2 z.1.declared) :
    Redeclares schema decls enclosing (.obj ns)
      ((fullName (.obj ms) enclosing, .obj ms) :: (zs.map (·.1)).flatMap (·.declared)) := by
  have hpieces : ∀ z ∈ zs, ∃ p : Piece, p.node = z.1.node.put "type" z.2 ∧ p.IsField ∧
      Describes (decls.map (·.1)) (splitName (fullName (.obj ns) enclosing)).1 (typeOf p.node)
        p.layout p.declared ∧
      Replaces schema decls p.declared ∧ z.1.declared.map (·.1) ⊆ p.declared.map (·.1) := by
    intro z hz
    obtain ⟨l, ds, hd, hreplaces, hnames⟩ := h z hz
    obtain ⟨name, hget⟩ := Option.isSome_iff_exists.mp (hfield z hz).named
    refine ⟨⟨z.1.node.put "type" z.2, z.1.default, l, ds⟩, rfl, ⟨?_, ?_⟩, ?_, hreplaces, hnames⟩
    · rw [Json.has, Json.get?_put hget, if_neg (by decide), hget]
      rfl
    · rw [Json.get?_put hget, if_neg (by decide)]
      exact (hfield z hz).default_eq
    · rw [typeOf_put hget, hname]
      exact hd
  obtain ⟨found, hfound⟩ := exists_forall_mem hpieces
  have hnodes : fieldsOf (.obj ns) = (zs.map found).map (·.node) := by
    rw [hfields, List.map_map]
    exact List.map_congr_left fun z hz => (hfound z hz).1.symm
  refine ⟨_, _, .record hkind hnodes (List.forall_mem_map.mpr fun z hz => (hfound z hz).2.1)
    (List.forall_mem_map.mpr fun z hz => (hfound z hz).2.2.1),
    .cons hname hmem hcounterpart ?_, ?_⟩
  · rw [List.flatMap_map]
    exact replaces_flatMap fun z hz => (hfound z hz).2.2.2.1
  · rw [List.map_cons, List.map_cons, List.flatMap_map, List.flatMap_map]
    refine List.cons_subset.mpr ⟨List.mem_cons.mpr (.inl hname.symm), ?_⟩
    exact List.subset_cons_of_subset _ (names_flatMap fun z hz => (hfound z hz).2.2.2.2)

/-- A node of an accepted schema declares the same names with references inlined, and nothing that
the schema does not declare. -/
theorem Inlines.redeclares (h : Inlines (Registry.ofSchema schema) enclosing node node')
    (ha : Accepted schema top decls) (hallowed : Allowed (Registry.ofSchema schema) "" schema)
    (hs : StandsIn schema enclosing node)
    (hd : Describes (decls.map (·.1)) enclosing node layout ds) (hsub : ds ⊆ decls) :
    Redeclares schema decls enclosing node' ds := by
  induction h generalizing layout ds with
  | same => exact ⟨layout, ds, hd, replaces_self ha hallowed hsub, List.Subset.refl _⟩
  | @reference enclosing name declared hname hfind =>
    obtain ⟨ms, outer, hmem, hkind, hfull, hs', hfind'⟩ := hs.reference ha hallowed hname
    obtain rfl := Option.some.inj (hfind.symm.trans hfind')
    cases hd with
    | name | reference =>
      exact redeclares_copy ha hallowed hmem hkind hfull hs' (hasDot_referenceName name enclosing)
  | @union enclosing pairs h ih =>
    generalize hmembers : pairs.map (·.1) = members at hd
    cases hd with
    | union hpieces =>
      obtain ⟨zs, rfl, rfl⟩ := zip_pieces hmembers.symm
      simp only [List.forall_mem_map] at hpieces ih
      rw [List.map_map]
      refine redeclares_union fun z hz => ?_
      have hmem : z.1 ∈ zs.map (·.1) := List.mem_map_of_mem hz
      have hinner : StandsIn schema enclosing z.1.node :=
        hs.inner (hmembers ▸ List.mem_map_of_mem hmem)
      exact ih z hz hinner (hpieces z hz) fun d hd => hsub (List.mem_flatMap.mpr ⟨z.1, hmem, hd⟩)
  | @array enclosing node items items' hkind hitems h ih =>
    cases hd with
    | name | reference | union => cases hitems
    | annotated hp => exact absurd hkind (not_kind hp rfl)
    | map hother | enum hother | fixed hother | record hother =>
      exact absurd (hkind.symm.trans hother) (by decide)
    | @array _ ms _ _ _ _ hitems' hd =>
      obtain rfl := Option.some.inj (hitems.symm.trans hitems')
      obtain ⟨l', ds', hd', hreplaces, hnames⟩ := ih (hs.item hkind hitems) hd hsub
      have hsame : SameBut "items" (.obj ms) ((Json.obj ms).put "items" items') :=
        sameBut_put hitems _
      exact ⟨_, ds', .array ((hsame.typeName_eq (by decide)).trans hkind)
        ((Json.get?_put hitems _ _).trans (if_pos rfl)) hd', hreplaces, hnames⟩
  | @record enclosing node pairs hkind hfields h ih =>
    have hinlines := Inlines.record hkind hfields h
    cases hd with
    | name | reference | union => cases hfields
    | annotated hp => exact absurd hkind (not_kind hp rfl)
    | array hother | map hother | enum hother | fixed hother =>
      exact absurd (hkind.symm.trans hother) (by decide)
    | @record _ ms pieces _ hfields' hfield hpieces =>
      obtain ⟨zs, rfl, rfl⟩ := zip_pieces (hfields'.symm.trans (fieldsOf_arr hfields))
      obtain ⟨hcounterpart, hfull⟩ := hinlines.counterpart hkind fun f hf => by
        obtain ⟨p, hp, rfl⟩ := List.mem_map.mp (hfields' ▸ hf)
        exact (hfield p hp).named
      obtain ⟨ns, hns, hkind'⟩ := hcounterpart.isRecord
      have hfieldsOf : fieldsOf (.obj ns) = zs.map fun z => z.1.node.put "type" z.2 := by
        rw [← hns]
        exact (fieldsOf_arr ((Json.get?_put hfields _ _).trans (if_pos rfl))).trans List.map_map
      simp only [List.forall_mem_map] at hpieces hfield ih
      rw [hns] at hcounterpart hfull ⊢
      refine redeclares_record (hsub List.mem_cons_self) hcounterpart hkind' hfull hfieldsOf hfield
        fun z hz => ?_
      have hmem : z.1 ∈ zs.map (·.1) := List.mem_map_of_mem hz
      have hinner : StandsIn schema (namespaceOf (.obj ms) enclosing) (typeOf z.1.node) :=
        hs.field hkind (hfields' ▸ List.mem_map_of_mem hmem)
      exact ih z hz hinner (hpieces z hz) fun d hd =>
        hsub (List.mem_cons_of_mem _ (List.mem_flatMap.mpr ⟨z.1, hmem, hd⟩))

end declarations

end Schema

end AvroDocument
