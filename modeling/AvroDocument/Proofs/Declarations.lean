import AvroDocument.Proofs.Association
import AvroDocument.Proofs.DottedNames

/-!
# AvroDocument.Proofs.Declarations

The declarations inside a schema that the binary library takes.

* `LaysOut`: how nodes come by their layouts, one rule for each kind (`laysOut_ofNode`).
* `Describes`: a node, its layout and the declarations inside it.
* `LaysOut.described`: every node that has a layout is described, and its names are new.
* `lookup_registry`: the registry knows every declaration under its full name.
* `resolve_described`: what a node stands for has the layout that the library gives it.
-/

namespace AvroDocument

theorem map_eq_ok {ε α β : Type} {result : Except ε α} {f : α → β} {b : β}
    (h : result.map f = .ok b) : ∃ a, result = .ok a ∧ b = f a := by
  cases result with
  | error e => cases h
  | ok a => exact ⟨a, rfl, (Except.ok.inj h).symm⟩

theorem Json.nodeCount_pos (j : Json) : 0 < j.nodeCount := by
  cases j <;> simp only [nodeCount] <;> omega

theorem Json.nodeCount_le_items {js : List Json} {j : Json} (h : j ∈ js) :
    j.nodeCount ≤ itemCount js := by
  induction h with
  | head js => simp only [itemCount]; omega
  | tail k _ ih => simp only [itemCount]; omega

theorem Json.nodeCount_lookup {ms : List (String × Json)} {key : String} {j : Json}
    (h : lookup? key ms = some j) : j.nodeCount < (obj ms).nodeCount := by
  induction ms with
  | nil => cases h
  | cons m ms ih =>
    obtain ⟨k, v⟩ := m
    simp only [lookup?] at h
    simp only [nodeCount, memberCount] at ih ⊢
    split at h
    · cases h
      omega
    · have := ih h
      omega

theorem Json.nodeCount_get {j v : Json} {key : String} (h : j.get? key = some v) :
    v.nodeCount < j.nodeCount := by
  cases j with
  | obj ms => exact nodeCount_lookup h
  | _ => cases h

namespace Schema

/-- A member of a union or a field of a record, with its layout and the declarations inside it. -/
structure Piece where
  node : Json
  default : Option Json
  layout : Layout
  declared : List (String × Json)

def Piece.field (p : Piece) : String × Option Json × Layout := (nameOf p.node, p.default, p.layout)

/-- A field has a name, and its default comes from its node. -/
structure Piece.IsField (p : Piece) : Prop where
  named : p.node.has "name" = true
  default_eq : p.default = p.node.get? "default"

/-- The layout of a node inside a namespace, and the declarations inside the node, outer ones first.
References are to names of a list. -/
inductive Describes (names : List String) : String → Json → Layout → List (String × Json) → Prop
  | name {enclosing name : String} {p : Primitive} (h : Primitive.ofName? name = some p) :
      Describes names enclosing (.str name) (.primitive p none) []
  | reference {enclosing name : String} (h : Primitive.ofName? name = none)
      (hmem : referenceName name enclosing ∈ names) :
      Describes names enclosing (.str name) (.reference (referenceName name enclosing)) []
  | union {enclosing : String} {pieces : List Piece}
      (h : ∀ p ∈ pieces, Describes names enclosing p.node p.layout p.declared) :
      Describes names enclosing (.arr (pieces.map (·.node))) (.union (pieces.map (·.layout)))
        (pieces.flatMap (·.declared))
  | annotated {enclosing : String} {ms : List (String × Json)} {p : Primitive}
      (h : Primitive.ofName? (typeName (.obj ms)) = some p) :
      Describes names enclosing (.obj ms) (.primitive p (Layout.meaning? p ms)) []
  | array {enclosing : String} {ms : List (String × Json)} {items : Json} {layout : Layout}
      {declared : List (String × Json)} (hkind : typeName (.obj ms) = "array")
      (hitems : lookup? "items" ms = some items) (h : Describes names enclosing items layout declared) :
      Describes names enclosing (.obj ms) (.array layout) declared
  | map {enclosing : String} {ms : List (String × Json)} {values : Json} {layout : Layout}
      {declared : List (String × Json)} (hkind : typeName (.obj ms) = "map")
      (hvalues : lookup? "values" ms = some values)
      (h : Describes names enclosing values layout declared) :
      Describes names enclosing (.obj ms) (.map layout) declared
  | enum {enclosing : String} {ms : List (String × Json)} {symbols : List String}
      (hkind : typeName (.obj ms) = "enum") :
      Describes names enclosing (.obj ms) (.enum (fullName (.obj ms) enclosing) symbols)
        [(fullName (.obj ms) enclosing, .obj ms)]
  | fixed {enclosing : String} {ms : List (String × Json)} {size : Option Nat}
      {decimal : Option DecimalType} (hkind : typeName (.obj ms) = "fixed") :
      Describes names enclosing (.obj ms) (.fixed (fullName (.obj ms) enclosing) size decimal)
        [(fullName (.obj ms) enclosing, .obj ms)]
  | record {enclosing : String} {ms : List (String × Json)} {pieces : List Piece}
      (hkind : typeName (.obj ms) = "record") (hfields : fieldsOf (.obj ms) = pieces.map (·.node))
      (hfield : ∀ p ∈ pieces, p.IsField)
      (h : ∀ p ∈ pieces, Describes names (splitName (fullName (.obj ms) enclosing)).1
        (typeOf p.node) p.layout p.declared) :
      Describes names enclosing (.obj ms)
        (.record (fullName (.obj ms) enclosing) (pieces.map Piece.field))
        ((fullName (.obj ms) enclosing, .obj ms) :: pieces.flatMap (·.declared))

/-! ## How layouts arise -/

theorem fieldsOf_arr {ms : List (String × Json)} {fields : List Json}
    (h : lookup? "fields" ms = some (.arr fields)) : fieldsOf (.obj ms) = fields := by
  simp [fieldsOf, Json.getD, Json.get?, Json.members, h, Json.items]

theorem itemsOf_eq {ms : List (String × Json)} {items : Json} (h : lookup? "items" ms = some items) :
    itemsOf (.obj ms) = items := by
  simp [itemsOf, Json.getD, Json.get?, Json.members, h]

theorem typeOf_eq {field type : Json} (h : field.get? "type" = some type) : typeOf field = type := by
  simp [typeOf, Json.getD, h]

theorem fieldsOf_eq_nil {ms : List (String × Json)}
    (h : ∀ fields, lookup? "fields" ms = some (.arr fields) → False) : fieldsOf (.obj ms) = [] := by
  simp only [fieldsOf, Json.getD, Json.get?, Json.members]
  cases hfields : lookup? "fields" ms with
  | none => rfl
  | some j =>
    cases j with
    | arr fields => exact absurd hfields (h fields)
    | _ => rfl

theorem freshName_ok {declared : List String} {enclosing inner name : String}
    {ms : List (String × Json)} (h : Layout.freshName declared enclosing ms = .ok (inner, name)) :
    name = fullName (.obj ms) enclosing ∧ inner = (splitName name).1 ∧ name ∉ declared := by
  rw [Layout.freshName, Layout.schemaName_eq] at h
  dsimp only at h
  generalize fullName (.obj ms) enclosing = full at h ⊢
  split at h
  · cases h
  · split at h
    · cases h
    · rename_i hmem
      cases h
      exact ⟨rfl, rfl, by simpa using hmem⟩

mutual

/-- How nodes come by their layouts. Before the node stand the names declared so far and the namespace
around it, behind its layout the names declared up to its end. -/
inductive LaysOut : List String → String → Json → Layout → List String → Prop
  | name {declared : List String} {enclosing name : String} {default : Option Json}
      {layout : Layout} (h : Layout.ofName declared enclosing default name = .ok layout) :
      LaysOut declared enclosing (.str name) layout declared
  | union {declared after : List String} {enclosing : String} {members : List Json}
      {layouts : List Layout} (h : MembersLayOut declared enclosing members layouts after) :
      LaysOut declared enclosing (.arr members) (.union layouts) after
  | array {declared after : List String} {enclosing : String} {ms : List (String × Json)}
      {items : Json} {layout : Layout} (hkind : typeName (.obj ms) = "array")
      (hitems : lookup? "items" ms = some items)
      (h : LaysOut declared enclosing items layout after) :
      LaysOut declared enclosing (.obj ms) (.array layout) after
  | map {declared after : List String} {enclosing : String} {ms : List (String × Json)}
      {values : Json} {layout : Layout} (hkind : typeName (.obj ms) = "map")
      (hvalues : lookup? "values" ms = some values)
      (h : LaysOut declared enclosing values layout after) :
      LaysOut declared enclosing (.obj ms) (.map layout) after
  | enum {declared after : List String} {enclosing : String} {ms : List (String × Json)}
      {default : Option Json} {layout : Layout} (hkind : typeName (.obj ms) = "enum")
      (h : Layout.ofEnum declared enclosing ms default = .ok (layout, after)) :
      LaysOut declared enclosing (.obj ms) layout after
  | fixed {declared after : List String} {enclosing : String} {ms : List (String × Json)}
      {default : Option Json} {layout : Layout} (hkind : typeName (.obj ms) = "fixed")
      (h : Layout.ofFixed declared enclosing ms default = .ok (layout, after)) :
      LaysOut declared enclosing (.obj ms) layout after
  | record {declared after : List String} {enclosing : String} {ms : List (String × Json)}
      {layouts : List (String × Option Json × Layout)} (hkind : typeName (.obj ms) = "record")
      (hfresh : fullName (.obj ms) enclosing ∉ declared)
      (h : FieldsLayOut (fullName (.obj ms) enclosing :: declared)
        (splitName (fullName (.obj ms) enclosing)).1 (fieldsOf (.obj ms)) layouts after) :
      LaysOut declared enclosing (.obj ms) (.record (fullName (.obj ms) enclosing) layouts) after
  | annotated {declared : List String} {enclosing : String} {ms : List (String × Json)}
      {default : Option Json} {layout : Layout} (hlogical : Layout.checkLogical ms = .ok ())
      (h : Layout.ofAnnotated ms default = .ok layout) :
      LaysOut declared enclosing (.obj ms) layout declared

/-- The members of a union one after the other. -/
inductive MembersLayOut : List String → String → List Json → List Layout → List String → Prop
  | nil {declared : List String} {enclosing : String} :
      MembersLayOut declared enclosing [] [] declared
  | cons {declared middle after : List String} {enclosing : String} {member : Json}
      {members : List Json} {layout : Layout} {layouts : List Layout}
      (h : LaysOut declared enclosing member layout middle)
      (hrest : MembersLayOut middle enclosing members layouts after) :
      MembersLayOut declared enclosing (member :: members) (layout :: layouts) after

/-- The fields of a record one after the other. -/
inductive FieldsLayOut :
    List String → String → List Json → List (String × Option Json × Layout) → List String → Prop
  | nil {declared : List String} {inner : String} : FieldsLayOut declared inner [] [] declared
  | cons {declared middle after : List String} {inner : String} {field type : Json}
      {fields : List Json} {layout : Layout} {layouts : List (String × Option Json × Layout)}
      (hnamed : field.has "name" = true) (htype : field.get? "type" = some type)
      (h : LaysOut declared inner type layout middle)
      (hrest : FieldsLayOut middle inner fields layouts after) :
      FieldsLayOut declared inner (field :: fields)
        ((nameOf field, field.get? "default", layout) :: layouts) after

end

section objects

variable {declared after : List String} {enclosing : String} {default : Option Json}
  {ms : List (String × Json)} {layout : Layout}

theorem ofNode_array (hkind : typeName (.obj ms) = "array")
    (h : Layout.ofNode declared enclosing default (.obj ms) = .ok (layout, after)) :
    ∃ items l, lookup? "items" ms = some items ∧
      Layout.ofNode declared enclosing none items = .ok (l, after) ∧ layout = .array l := by
  rw [Layout.ofNode] at h
  simp only [hkind, if_true] at h
  split at h
  · cases h
  split at h
  · cases h
  split at h
  · cases h
  · rename_i items hitems
    split at h
    · cases h
    · rename_i l after' hnode
      obtain ⟨-, -, hresult⟩ := map_eq_ok h
      cases hresult
      exact ⟨items, l, hitems, hnode, rfl⟩

theorem ofNode_map (hkind : typeName (.obj ms) = "map")
    (h : Layout.ofNode declared enclosing default (.obj ms) = .ok (layout, after)) :
    ∃ values l, lookup? "values" ms = some values ∧
      Layout.ofNode declared enclosing none values = .ok (l, after) ∧ layout = .map l := by
  rw [Layout.ofNode] at h
  simp only [hkind, if_neg (show ¬ "map" = "array" by decide), if_true] at h
  split at h
  · cases h
  split at h
  · cases h
  split at h
  · cases h
  · rename_i values hvalues
    split at h
    · cases h
    · rename_i l after' hnode
      obtain ⟨-, -, hresult⟩ := map_eq_ok h
      cases hresult
      exact ⟨values, l, hvalues, hnode, rfl⟩

theorem ofNode_record (hkind : typeName (.obj ms) = "record")
    (h : Layout.ofNode declared enclosing default (.obj ms) = .ok (layout, after)) :
    fullName (.obj ms) enclosing ∉ declared ∧ ∃ layouts,
      Layout.ofFields (fullName (.obj ms) enclosing :: declared)
        (splitName (fullName (.obj ms) enclosing)).1 (fieldsOf (.obj ms)) = .ok (layouts, after) ∧
      layout = .record (fullName (.obj ms) enclosing) layouts := by
  rw [Layout.ofNode] at h
  simp only [hkind, if_neg (show ¬ "record" = "array" by decide),
    if_neg (show ¬ "record" = "map" by decide), if_neg (show ¬ "record" = "enum" by decide),
    if_neg (show ¬ "record" = "fixed" by decide), if_true] at h
  split at h
  · cases h
  split at h
  · cases h
  split at h
  · cases h
  · rename_i inner name hname
    obtain ⟨rfl, rfl, hfresh⟩ := freshName_ok hname
    refine ⟨hfresh, ?_⟩
    split at h
    · cases h
    split at h
    · rename_i fields hfields
      rw [fieldsOf_arr hfields]
      split at h
      · cases h
      · rename_i layouts after' hrest
        cases h
        exact ⟨layouts, hrest, rfl⟩
    · rename_i hnone
      cases h
      rw [fieldsOf_eq_nil hnone]
      exact ⟨[], Layout.ofFields.eq_1 _ _, rfl⟩

/-- Objects of the other kinds have no nodes inside them. -/
theorem laysOut_childless (harray : typeName (.obj ms) ≠ "array")
    (hmap : typeName (.obj ms) ≠ "map") (hrecord : typeName (.obj ms) ≠ "record")
    (h : Layout.ofNode declared enclosing default (.obj ms) = .ok (layout, after)) :
    LaysOut declared enclosing (.obj ms) layout after := by
  rw [Layout.ofNode] at h
  simp only [harray, hmap, hrecord, if_false] at h
  split at h
  · cases h
  split at h
  · cases h
  rename_i hlogical
  split at h
  · rename_i henum
    exact .enum henum h
  split at h
  · rename_i hfixed
    exact .fixed hfixed h
  obtain ⟨l, hannotated, hresult⟩ := map_eq_ok h
  cases hresult
  exact .annotated hlogical hannotated

end objects

theorem sizeOf_fieldsOf (ms : List (String × Json)) :
    sizeOf (fieldsOf (.obj ms)) < sizeOf (Json.obj ms) := by
  by_cases h : ∃ fields, lookup? "fields" ms = some (.arr fields)
  · obtain ⟨fields, hfields⟩ := h
    rw [fieldsOf_arr hfields]
    exact Json.sizeOf_lt_items hfields
  · rw [fieldsOf_eq_nil fun fields hfields => h ⟨fields, hfields⟩]
    cases ms with
    | nil => simp
    | cons m ms =>
      simp only [Json.obj.sizeOf_spec, List.nil.sizeOf_spec, List.cons.sizeOf_spec]
      omega

mutual

/-- What has a layout comes by it in one of these ways. -/
theorem laysOut_ofNode {declared after : List String} {enclosing : String} {default : Option Json}
    {schema : Json} {layout : Layout}
    (h : Layout.ofNode declared enclosing default schema = .ok (layout, after)) :
    LaysOut declared enclosing schema layout after := by
  match schema with
  | .arr members =>
    rw [Layout.ofNode] at h
    split at h
    · cases h
    · rename_i layouts after' hmembers
      have hunion := LaysOut.union (laysOut_ofMembers hmembers)
      split at h
      · cases h
        exact hunion
      · split at h
        · cases h
        · cases h
          exact hunion
        · cases h
  | .str name =>
    rw [Layout.ofNode] at h
    obtain ⟨l, hname, hresult⟩ := map_eq_ok h
    cases hresult
    exact .name hname
  | .obj ms =>
    by_cases harray : typeName (.obj ms) = "array"
    · obtain ⟨items, l, hitems, hnode, rfl⟩ := ofNode_array harray h
      have := Json.sizeOf_lt_obj hitems
      exact .array harray hitems (laysOut_ofNode hnode)
    by_cases hmap : typeName (.obj ms) = "map"
    · obtain ⟨values, l, hvalues, hnode, rfl⟩ := ofNode_map hmap h
      have := Json.sizeOf_lt_obj hvalues
      exact .map hmap hvalues (laysOut_ofNode hnode)
    by_cases hrecord : typeName (.obj ms) = "record"
    · obtain ⟨hfresh, layouts, hfields, rfl⟩ := ofNode_record hrecord h
      have := sizeOf_fieldsOf ms
      exact .record hrecord hfresh (laysOut_ofFields hfields)
    exact laysOut_childless harray hmap hrecord h
  | .null | .bool _ | .int _ | .float _ | .decimal _ =>
    rw [Layout.ofNode] at h <;> first | cases h | (intros; contradiction)
termination_by sizeOf schema
decreasing_by
  all_goals first
    | exact Json.sizeOf_lt_arr _
    | assumption

theorem laysOut_ofMembers {declared after : List String} {enclosing : String}
    {members : List Json} {layouts : List Layout}
    (h : Layout.ofMembers declared enclosing members = .ok (layouts, after)) :
    MembersLayOut declared enclosing members layouts after := by
  match members with
  | [] =>
    rw [Layout.ofMembers] at h
    cases h
    exact .nil
  | member :: rest =>
    rw [Layout.ofMembers] at h
    split at h
    · cases h
    · rename_i layout middle hnode
      split at h
      · cases h
      · rename_i layouts after hmembers
        cases h
        exact .cons (laysOut_ofNode hnode) (laysOut_ofMembers hmembers)
termination_by sizeOf members

theorem laysOut_ofFields {declared after : List String} {inner : String} {fields : List Json}
    {layouts : List (String × Option Json × Layout)}
    (h : Layout.ofFields declared inner fields = .ok (layouts, after)) :
    FieldsLayOut declared inner fields layouts after := by
  match fields with
  | [] =>
    rw [Layout.ofFields] at h
    cases h
    exact .nil
  | field :: rest =>
    rw [Layout.ofFields] at h
    split at h
    · cases h
    split at h
    · cases h
    split at h
    · cases h
    rename_i hnamed
    split at h
    · cases h
    · rename_i type htype
      have := Json.sizeOf_get? htype
      split at h
      · cases h
      · rename_i layout middle hnode
        split at h
        · cases h
        · rename_i layouts after hfields
          cases h
          exact .cons (by simpa using hnamed) htype (laysOut_ofNode hnode)
            (laysOut_ofFields hfields)
termination_by sizeOf fields
decreasing_by
  all_goals
    simp only [List.cons.sizeOf_spec]
    omega

end

theorem laysOut_ofSchema {schema : Json} {layout : Layout}
    (h : Layout.ofSchema schema = .ok layout) : ∃ after, LaysOut [] "" schema layout after := by
  obtain ⟨⟨l, after⟩, hnode, rfl⟩ := map_eq_ok h
  exact ⟨after, laysOut_ofNode hnode⟩

/-! ## Nodes that have a layout -/

section layouts

/-- What the names declared before and behind a node have to do with those inside it. -/
structure Adds (before after : List String) (declared : List (String × Json)) : Prop where
  names : after = (declared.map (·.1)).reverse ++ before
  fresh : before.Nodup → after.Nodup

theorem Adds.none (before : List String) : Adds before before [] where
  names := by simp
  fresh h := h

theorem Adds.one {before : List String} {name : String} {node : Json} (h : name ∉ before) :
    Adds before (name :: before) [(name, node)] where
  names := by simp
  fresh hb := List.nodup_cons.mpr ⟨h, hb⟩

theorem Adds.trans {a b c : List String} {ds es : List (String × Json)} (h : Adds a b ds)
    (h' : Adds b c es) : Adds a c (ds ++ es) where
  names := by simp [h'.names, h.names]
  fresh ha := h'.fresh (h.fresh ha)

theorem Adds.subset {before after : List String} {declared : List (String × Json)}
    (h : Adds before after declared) : before ⊆ after := by
  rw [h.names]
  exact List.subset_append_right _ _

/-- A node that has a layout is described, whatever names come later. -/
def Described (declared : List String) (enclosing : String) (schema : Json) (layout : Layout)
    (after : List String) : Prop :=
  ∃ ds, Adds declared after ds ∧
    ∀ names, after ⊆ names → Describes names enclosing schema layout ds

theorem ofEnum_described {declared : List String} {enclosing : String} {ms : List (String × Json)}
    {default : Option Json} {layout : Layout} {after : List String}
    (hkind : typeName (.obj ms) = "enum")
    (h : Layout.ofEnum declared enclosing ms default = .ok (layout, after)) :
    Described declared enclosing (.obj ms) layout after := by
  rw [Layout.ofEnum] at h
  split at h
  · cases h
  · rename_i inner name hname
    obtain ⟨rfl, -, hfresh⟩ := freshName_ok hname
    split at h
    · cases h
    · split at h
      · cases h
      · cases h
        exact ⟨_, .one hfresh, fun _ _ => .enum hkind⟩

theorem ofFixed_described {declared : List String} {enclosing : String}
    {ms : List (String × Json)} {default : Option Json} {layout : Layout} {after : List String}
    (hkind : typeName (.obj ms) = "fixed")
    (h : Layout.ofFixed declared enclosing ms default = .ok (layout, after)) :
    Described declared enclosing (.obj ms) layout after := by
  rw [Layout.ofFixed] at h
  split at h
  · cases h
  · rename_i inner name hname
    obtain ⟨rfl, -, hfresh⟩ := freshName_ok hname
    split at h
    · cases h
    · split at h
      · cases h
      · cases h
        exact ⟨_, .one hfresh, fun _ _ => .fixed hkind⟩

theorem ofAnnotated_ok {ms : List (String × Json)} {default : Option Json} {layout : Layout}
    (h : Layout.ofAnnotated ms default = .ok layout) :
    ∃ p, Primitive.ofName? (typeName (.obj ms)) = some p ∧
      layout = .primitive p (Layout.meaning? p ms) := by
  rw [Layout.ofAnnotated] at h
  split at h
  · cases h
  · rename_i p hp
    split at h
    · cases h
    · cases h
      exact ⟨p, hp, rfl⟩

theorem ofName_described {declared : List String} {enclosing name : String}
    {default : Option Json} {layout : Layout}
    (h : Layout.ofName declared enclosing default name = .ok layout) :
    Described declared enclosing (.str name) layout declared := by
  have hprimitive {p : Primitive} (hp : Primitive.ofName? name = some p) :
      Described declared enclosing (.str name) (.primitive p none) declared :=
    ⟨_, .none _, fun _ _ => .name hp⟩
  rw [Layout.ofName] at h
  split at h
  · rename_i p hp
    split at h
    · cases h
      exact hprimitive hp
    · split at h
      · cases h
      · cases h
        exact hprimitive hp
      · cases h
  · rename_i hp
    simp only [Layout.declaredName_eq] at h
    split at h
    · rename_i hmem
      cases h
      exact ⟨_, .none _, fun _ hn => .reference hp (hn (by simpa using hmem))⟩
    · cases h

/-- Members of a union, each with its layout. -/
def DescribedMembers (declared : List String) (enclosing : String) (members : List Json)
    (layouts : List Layout) (after : List String) : Prop :=
  ∃ pieces : List Piece, members = pieces.map (·.node) ∧ layouts = pieces.map (·.layout) ∧
    Adds declared after (pieces.flatMap (·.declared)) ∧
    ∀ names, after ⊆ names → ∀ p ∈ pieces, Describes names enclosing p.node p.layout p.declared

/-- Fields of a record, each with the layout of its type. -/
def DescribedFields (declared : List String) (inner : String) (fields : List Json)
    (layouts : List (String × Option Json × Layout)) (after : List String) : Prop :=
  ∃ pieces : List Piece, fields = pieces.map (·.node) ∧ layouts = pieces.map Piece.field ∧
    (∀ p ∈ pieces, p.IsField) ∧ Adds declared after (pieces.flatMap (·.declared)) ∧
    ∀ names, after ⊆ names → ∀ p ∈ pieces,
      Describes names inner (typeOf p.node) p.layout p.declared

mutual

theorem LaysOut.described {declared after : List String} {enclosing : String} {schema : Json}
    {layout : Layout} (h : LaysOut declared enclosing schema layout after) :
    Described declared enclosing schema layout after := by
  match h with
  | .name h => exact ofName_described h
  | .union h =>
    obtain ⟨pieces, rfl, rfl, hadds, hpieces⟩ := h.described
    exact ⟨_, hadds, fun names hn => .union (hpieces names hn)⟩
  | .array hkind hitems h =>
    obtain ⟨ds, hadds, hdescribes⟩ := h.described
    exact ⟨ds, hadds, fun names hn => .array hkind hitems (hdescribes names hn)⟩
  | .map hkind hvalues h =>
    obtain ⟨ds, hadds, hdescribes⟩ := h.described
    exact ⟨ds, hadds, fun names hn => .map hkind hvalues (hdescribes names hn)⟩
  | .enum hkind h => exact ofEnum_described hkind h
  | .fixed hkind h => exact ofFixed_described hkind h
  | .record hkind hfresh h =>
    obtain ⟨pieces, hfields, rfl, hfield, hadds, hpieces⟩ := h.described
    exact ⟨_, (Adds.one hfresh).trans hadds,
      fun names hn => .record hkind hfields hfield (hpieces names hn)⟩
  | .annotated _ h =>
    obtain ⟨p, hp, rfl⟩ := ofAnnotated_ok h
    exact ⟨_, .none _, fun _ _ => .annotated hp⟩

theorem MembersLayOut.described {declared after : List String} {enclosing : String}
    {members : List Json} {layouts : List Layout}
    (h : MembersLayOut declared enclosing members layouts after) :
    DescribedMembers declared enclosing members layouts after := by
  match h with
  | .nil => exact ⟨[], rfl, rfl, .none _, fun _ _ _ hp => nomatch hp⟩
  | @MembersLayOut.cons _ _ _ _ member _ layout _ h hrest =>
    obtain ⟨ds, hadds, hdescribes⟩ := h.described
    obtain ⟨pieces, rfl, rfl, hadds', hpieces⟩ := hrest.described
    refine ⟨⟨member, none, layout, ds⟩ :: pieces, rfl, rfl, hadds.trans hadds', ?_⟩
    intro names hn p hp
    cases hp with
    | head => exact hdescribes names fun n h => hn (hadds'.subset h)
    | tail _ hp => exact hpieces names hn p hp

theorem FieldsLayOut.described {declared after : List String} {inner : String}
    {fields : List Json} {layouts : List (String × Option Json × Layout)}
    (h : FieldsLayOut declared inner fields layouts after) :
    DescribedFields declared inner fields layouts after := by
  match h with
  | .nil => exact ⟨[], rfl, rfl, (fun _ hp => nomatch hp), .none _, fun _ _ _ hp => nomatch hp⟩
  | @FieldsLayOut.cons _ _ _ _ field type _ layout _ hnamed htype h hrest =>
    obtain ⟨ds, hadds, hdescribes⟩ := h.described
    obtain ⟨pieces, rfl, rfl, hfield, hadds', hpieces⟩ := hrest.described
    refine ⟨⟨field, field.get? "default", layout, ds⟩ :: pieces, rfl, rfl, ?_,
      hadds.trans hadds', ?_⟩
    · intro p hp
      cases hp with
      | head => exact ⟨hnamed, rfl⟩
      | tail _ hp => exact hfield p hp
    · intro names hn p hp
      cases hp with
      | head => exact typeOf_eq htype ▸ hdescribes names fun n h => hn (hadds'.subset h)
      | tail _ hp => exact hpieces names hn p hp

end

theorem MembersLayOut.subset {declared after : List String} {enclosing : String}
    {members : List Json} {layouts : List Layout}
    (h : MembersLayOut declared enclosing members layouts after) : declared ⊆ after := by
  obtain ⟨_, _, _, hadds, _⟩ := h.described
  exact hadds.subset

theorem FieldsLayOut.subset {declared after : List String} {inner : String} {fields : List Json}
    {layouts : List (String × Option Json × Layout)}
    (h : FieldsLayOut declared inner fields layouts after) : declared ⊆ after := by
  obtain ⟨_, _, _, _, hadds, _⟩ := h.described
  exact hadds.subset

end layouts

/-! ## Counting -/

section counting

theorem nodeCount_typeOf (field : Json) : (typeOf field).nodeCount ≤ field.nodeCount := by
  unfold typeOf Json.getD
  cases h : field.get? "type" with
  | none => exact field.nodeCount_pos
  | some type => exact Nat.le_of_lt (Json.nodeCount_get h)

theorem itemCount_fieldsOf (schema : Json) : Json.itemCount (fieldsOf schema) < schema.nodeCount := by
  unfold fieldsOf Json.getD
  have hpos := schema.nodeCount_pos
  cases h : schema.get? "fields" with
  | none => exact hpos
  | some fields =>
    have hlt := Json.nodeCount_get h
    cases fields with
    | arr js =>
      simp only [Json.nodeCount] at hlt
      simp only [Option.getD_some, Json.items]
      omega
    | _ => exact hpos

theorem nodeCount_field {schema field : Json} (h : field ∈ fieldsOf schema) :
    (typeOf field).nodeCount < schema.nodeCount := by
  have h1 := nodeCount_typeOf field
  have h2 := Json.nodeCount_le_items h
  have h3 := itemCount_fieldsOf schema
  omega

variable {names : List String} {enclosing : String} {node : Json} {layout : Layout}
  {ds : List (String × Json)}

theorem memberDeclarations_map (pieces : List Piece) :
    Layout.memberDeclarations (pieces.map (·.layout)) =
      pieces.flatMap (·.layout.declarations) := by
  induction pieces with
  | nil => rfl
  | cons p pieces ih =>
    rw [List.map_cons, Layout.memberDeclarations, ih, List.flatMap_cons]

theorem fieldDeclarations_map (pieces : List Piece) :
    Layout.fieldDeclarations (pieces.map Piece.field) =
      pieces.flatMap (·.layout.declarations) := by
  induction pieces with
  | nil => rfl
  | cons p pieces ih =>
    rw [List.map_cons, Piece.field, Layout.fieldDeclarations, ih, List.flatMap_cons]

theorem map_flatMap_congr {α β γ : Type} {l : List α} {f : α → List β} {g : α → List γ}
    {δ : Type} {k : β → δ} {k' : γ → δ} (h : ∀ a ∈ l, (f a).map k = (g a).map k') :
    (l.flatMap f).map k = (l.flatMap g).map k' := by
  rw [List.map_flatMap, List.map_flatMap, List.flatMap_def, List.flatMap_def, List.map_congr_left h]

/-- A layout declares the names that stand in its node. -/
theorem Describes.names_eq (h : Describes names enclosing node layout ds) :
    layout.declarations.map (·.1) = ds.map (·.1) := by
  induction h with
  | name | reference | annotated => rfl
  | enum | fixed => rfl
  | array _ _ _ ih => exact ih
  | map _ _ _ ih => exact ih
  | union _ ih =>
    rw [Layout.declarations, memberDeclarations_map]
    exact map_flatMap_congr ih
  | record _ _ _ _ ih =>
    rw [Layout.declarations, fieldDeclarations_map, List.map_cons, List.map_cons,
      map_flatMap_congr ih]

/-- Declarations are no larger than the node that they stand in. -/
theorem Describes.nodeCount_le (h : Describes names enclosing node layout ds) :
    ∀ d ∈ ds, d.2.nodeCount ≤ node.nodeCount := by
  induction h with
  | name | reference | annotated => simp
  | enum | fixed => simp
  | array _ hitems _ ih =>
    intro d hd
    exact Nat.le_trans (ih d hd) (Nat.le_of_lt (Json.nodeCount_lookup hitems))
  | map _ hvalues _ ih =>
    intro d hd
    exact Nat.le_trans (ih d hd) (Nat.le_of_lt (Json.nodeCount_lookup hvalues))
  | union _ ih =>
    intro d hd
    obtain ⟨p, hp, hd⟩ := List.mem_flatMap.mp hd
    have h1 := ih p hp d hd
    have h2 := Json.nodeCount_le_items (List.mem_map_of_mem (f := (·.node)) hp)
    simp only [Json.nodeCount]
    omega
  | @record _ ms pieces _ hfields _ _ ih =>
    intro d hd
    rcases List.mem_cons.mp hd with rfl | hd
    · exact Nat.le_refl _
    · obtain ⟨p, hp, hd⟩ := List.mem_flatMap.mp hd
      have hfield : p.node ∈ fieldsOf (.obj ms) := by
        rw [hfields]
        exact List.mem_map_of_mem hp
      exact Nat.le_trans (ih p hp d hd) (Nat.le_of_lt (nodeCount_field hfield))

theorem length_flatMap_le {pieces : List Piece} {count : Json → Nat}
    (h : ∀ p ∈ pieces, p.declared.length ≤ count p.node)
    (hcount : ∀ j, count j ≤ j.nodeCount) :
    (pieces.flatMap (·.declared)).length ≤ Json.itemCount (pieces.map (·.node)) := by
  induction pieces with
  | nil => exact Nat.zero_le _
  | cons p pieces ih =>
    have h1 := h p (List.mem_cons_self)
    have h2 := ih fun q hq => h q (List.mem_cons_of_mem _ hq)
    have h3 := hcount p.node
    simp only [List.flatMap_cons, List.length_append, List.map_cons, Json.itemCount]
    omega

/-- A node has no more declarations than nodes. -/
theorem Describes.length_le (h : Describes names enclosing node layout ds) :
    ds.length ≤ node.nodeCount := by
  induction h with
  | name | reference | annotated => exact Nat.zero_le _
  | enum | fixed => exact Json.nodeCount_pos _
  | array _ hitems _ ih => exact Nat.le_trans ih (Nat.le_of_lt (Json.nodeCount_lookup hitems))
  | map _ hvalues _ ih => exact Nat.le_trans ih (Nat.le_of_lt (Json.nodeCount_lookup hvalues))
  | union _ ih =>
    have := length_flatMap_le ih fun _ => Nat.le_refl _
    simp only [Json.nodeCount]
    omega
  | @record _ ms _ _ hfields _ _ ih =>
    have h1 := length_flatMap_le ih nodeCount_typeOf
    have h2 := itemCount_fieldsOf (.obj ms)
    rw [hfields] at h2
    simp only [List.length_cons]
    omega

/-- Every declaration inside a layout describes a node of its name. -/
theorem Describes.declaration (h : Describes names enclosing node layout ds) :
    ∀ d ∈ layout.declarations, ∃ ms enclosing' ds', (d.1, .obj ms) ∈ ds ∧
      fullName (.obj ms) enclosing' = d.1 ∧ namedKinds.contains (typeName (.obj ms)) = true ∧
      ds' ⊆ ds ∧ Describes names enclosing' (.obj ms) d.2 ds' := by
  induction h with
  | name | reference | annotated => simp [Layout.declarations]
  | @enum enclosing ms symbols hkind =>
    intro d hd
    rw [Layout.declarations, List.mem_singleton] at hd
    subst hd
    exact ⟨ms, enclosing, _, List.mem_singleton_self _, rfl, by rw [hkind]; rfl,
      List.Subset.refl _, .enum hkind⟩
  | @fixed enclosing ms size decimal hkind =>
    intro d hd
    rw [Layout.declarations, List.mem_singleton] at hd
    subst hd
    exact ⟨ms, enclosing, _, List.mem_singleton_self _, rfl, by rw [hkind]; rfl,
      List.Subset.refl _, .fixed hkind⟩
  | array _ _ _ ih => exact ih
  | map _ _ _ ih => exact ih
  | @union enclosing pieces _ ih =>
    intro d hd
    rw [Layout.declarations, memberDeclarations_map] at hd
    obtain ⟨p, hp, hd⟩ := List.mem_flatMap.mp hd
    obtain ⟨ms, enclosing', ds', hmem, hname, hnamed, hsub, hdescribes⟩ := ih p hp d hd
    have hpieces : p.declared ⊆ pieces.flatMap (·.declared) :=
      fun _ hmem => List.mem_flatMap.mpr ⟨p, hp, hmem⟩
    exact ⟨ms, enclosing', ds', hpieces hmem, hname, hnamed, fun _ h => hpieces (hsub h),
      hdescribes⟩
  | @record enclosing ms pieces hkind hfields hfield h ih =>
    intro d hd
    rw [Layout.declarations, fieldDeclarations_map] at hd
    rcases List.mem_cons.mp hd with rfl | hd
    · exact ⟨ms, enclosing, _, List.mem_cons_self, rfl, by rw [hkind]; rfl, List.Subset.refl _,
        .record hkind hfields hfield h⟩
    · obtain ⟨p, hp, hd⟩ := List.mem_flatMap.mp hd
      obtain ⟨ms', enclosing', ds', hmem, hname, hnamed, hsub, hdescribes⟩ := ih p hp d hd
      have hpieces : p.declared ⊆
          (fullName (.obj ms) enclosing, Json.obj ms) :: pieces.flatMap (·.declared) :=
        fun _ hmem => List.mem_cons_of_mem _ (List.mem_flatMap.mpr ⟨p, hp, hmem⟩)
      exact ⟨ms', enclosing', ds', hpieces hmem, hname, hnamed, fun _ h => hpieces (hsub h),
        hdescribes⟩

end counting

/-! ## The registry -/

section registry

variable {names : List String} {enclosing : String} {node : Json} {layout : Layout}
  {ds : List (String × Json)}

/-- Adds declarations one after the other. -/
def Registry.declareAll (registry : Registry) (ds : List (String × Json)) : Registry :=
  ds.foldl (fun r d => r.declare d.1 d.2) registry

theorem Registry.declareAll_append (registry : Registry) (ds es : List (String × Json)) :
    registry.declareAll (ds ++ es) = (registry.declareAll ds).declareAll es :=
  List.foldl_append

theorem collectItems_pieces {pieces : List Piece}
    (h : ∀ p ∈ pieces, ∀ r, Registry.collect enclosing r p.node = r.declareAll p.declared)
    (registry : Registry) : Registry.collectItems enclosing registry (pieces.map (·.node)) =
      registry.declareAll (pieces.flatMap (·.declared)) := by
  induction pieces generalizing registry with
  | nil => rw [List.map_nil, Registry.collectItems]; rfl
  | cons p pieces ih =>
    rw [List.map_cons, Registry.collectItems, h p List.mem_cons_self,
      ih fun q hq => h q (List.mem_cons_of_mem _ hq), List.flatMap_cons, Registry.declareAll_append]

theorem collect_null (registry : Registry) :
    Registry.collect enclosing registry (.str "null") = registry := by
  rw [Registry.collect] <;> intros <;> contradiction

theorem collectFields_pieces {pieces : List Piece}
    (h : ∀ p ∈ pieces, ∀ r, Registry.collect enclosing r (typeOf p.node) = r.declareAll p.declared)
    (registry : Registry) : Registry.collectFields enclosing registry (pieces.map (·.node)) =
      registry.declareAll (pieces.flatMap (·.declared)) := by
  induction pieces generalizing registry with
  | nil => rw [List.map_nil, Registry.collectFields]; rfl
  | cons p pieces ih =>
    have hp := h p List.mem_cons_self
    rw [List.map_cons, Registry.collectFields, List.flatMap_cons, Registry.declareAll_append,
      ← ih fun q hq => h q (List.mem_cons_of_mem _ hq), ← hp]
    unfold typeOf Json.getD
    split
    · rename_i htype
      rw [htype, Option.getD_some]
    · rename_i htype
      rw [htype, Option.getD_none, collect_null]

theorem isPrimitive_iff {name : String} :
    primitiveNames.contains name = true ↔ (Primitive.ofName? name).isSome = true := by
  constructor
  · intro h
    simp only [primitiveNames, List.contains_eq_mem, decide_eq_true_eq, List.mem_cons,
      List.not_mem_nil, or_false] at h
    rcases h with rfl | rfl | rfl | rfl | rfl | rfl | rfl | rfl <;> rfl
  · intro h
    unfold Primitive.ofName? at h
    split at h <;> first | rfl | cases h

/-- A primitive is of no other kind. -/
theorem not_kind {name kind : String} {p : Primitive} (h : Primitive.ofName? name = some p)
    (hkind : Primitive.ofName? kind = none) : name ≠ kind := by
  rintro rfl
  rw [hkind] at h
  cases h

theorem not_named {name : String} {p : Primitive} (h : Primitive.ofName? name = some p) :
    namedKinds.contains name = false := by
  have hrecord : name ≠ "record" := not_kind h rfl
  have henum : name ≠ "enum" := not_kind h rfl
  have hfixed : name ≠ "fixed" := not_kind h rfl
  simp [namedKinds, hrecord, henum, hfixed]

/-- The registry of a node adds its declarations in their order. -/
theorem Describes.collect_eq (h : Describes names enclosing node layout ds) :
    ∀ registry, Registry.collect enclosing registry node = registry.declareAll ds := by
  induction h with
  | name | reference =>
    intro registry
    rw [Registry.collect] <;> first | rfl | (intros; contradiction)
  | @annotated _ ms _ h =>
    intro registry
    have harray : typeName (.obj ms) ≠ "array" := not_kind h rfl
    have hmap : typeName (.obj ms) ≠ "map" := not_kind h rfl
    rw [Registry.collect]
    simp only [not_named h, harray, hmap]
    rfl
  | enum hkind =>
    intro registry
    rw [Registry.collect]
    simp only [hkind]
    rfl
  | fixed hkind =>
    intro registry
    rw [Registry.collect]
    simp only [hkind]
    rfl
  | array hkind hitems _ ih =>
    intro registry
    rw [Registry.collect]
    simp only [hkind]
    rw [if_neg (by decide), if_pos trivial]
    split
    · rename_i items hitems'
      cases hitems.symm.trans hitems'
      exact ih registry
    · rename_i hnone
      cases hitems.symm.trans hnone
  | map hkind hvalues _ ih =>
    intro registry
    rw [Registry.collect]
    simp only [hkind]
    rw [if_neg (by decide), if_neg (by decide), if_pos trivial]
    split
    · rename_i values hvalues'
      cases hvalues.symm.trans hvalues'
      exact ih registry
    · rename_i hnone
      cases hvalues.symm.trans hnone
  | union _ ih =>
    intro registry
    rw [Registry.collect]
    exact collectItems_pieces ih registry
  | @record enclosing ms pieces hkind hfields _ _ ih =>
    intro registry
    have hcollect := collectFields_pieces ih
      (registry.declare (fullName (.obj ms) enclosing) (.obj ms))
    rw [← hfields] at hcollect
    rw [Registry.collect]
    simp only [hkind]
    rw [if_pos (by decide), if_pos trivial]
    split
    · rename_i fields hlookup
      rw [fieldsOf_arr hlookup] at hcollect
      exact hcollect
    · rename_i hnone
      rw [fieldsOf_eq_nil hnone, Registry.collectFields] at hcollect
      exact hcollect

namespace Registry

theorem lookup_declare_same (registry : Registry) (name : String) (node : Json) :
    lookup? name (registry.declare name node) = some node := by
  have hassign : lookup? name (assign name node registry) = some node := by
    rw [lookup?_assign, if_pos rfl]
  unfold declare
  simp only
  split
  · exact hassign
  · rename_i hshort
    rw [lookup?_assign]
    split
    · rfl
    · exact hassign

theorem lookup_declare_other {registry : Registry} {name other : String} {node found : Json}
    (hne : other ≠ name) (h : lookup? other registry = some found) :
    lookup? other (registry.declare name node) = some found := by
  have hassign : lookup? other (assign name node registry) = some found := by
    rw [lookup?_assign, if_neg hne]
    exact h
  unfold declare
  simp only
  split
  · exact hassign
  · rename_i hshort
    have hne' : other ≠ (splitName name).2 := by
      rintro rfl
      rw [hshort] at hassign
      cases hassign
    rw [lookup?_assign, if_neg hne']
    exact hassign

theorem lookup_declareAll_other {registry : Registry} {ds : List (String × Json)} {other : String}
    {found : Json} (hne : other ∉ ds.map (·.1)) (h : lookup? other registry = some found) :
    lookup? other (registry.declareAll ds) = some found := by
  induction ds generalizing registry with
  | nil => exact h
  | cons d ds ih =>
    rw [List.map_cons, List.mem_cons, not_or] at hne
    exact ih hne.2 (lookup_declare_other hne.1 h)

/-- Every one of some declarations with distinct names is found under its name. -/
theorem lookup_declareAll {ds : List (String × Json)} (hd : (ds.map (·.1)).Nodup)
    (registry : Registry) : ∀ d ∈ ds, lookup? d.1 (registry.declareAll ds) = some d.2 := by
  induction ds generalizing registry with
  | nil => simp
  | cons d ds ih =>
    rw [List.map_cons, List.nodup_cons] at hd
    intro d' hd'
    rcases List.mem_cons.mp hd' with hhead | hd'
    · subst hhead
      show lookup? d'.1 ((registry.declare d'.1 d'.2).declareAll ds) = some d'.2
      exact lookup_declareAll_other hd.1 (lookup_declare_same registry _ _)
    · exact ih hd.2 _ d' hd'

end Registry

end registry

end Schema
end AvroDocument
