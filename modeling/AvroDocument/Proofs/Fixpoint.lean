import AvroDocument.Proofs.ContainerPath
import AvroDocument.Proofs.Equality
import AvroDocument.Proofs.ReadDepth
import AvroDocument.Proofs.ScalarStability
import AvroDocument.Proofs.Steps
import Mathlib

/-!
# AvroDocument.Proofs.Fixpoint

Records that are written in the same bytes after they were read.

* `Schema.TypeIn`, `Schema.Reproducible`: the types inside a schema, and schemas without defaults and
  identifiers whose fields have names of their own.
* `Echo`, `Reproduced`: what is read back for a datum, the document made of it, and the datum of that.
* `reproduced`: whatever is prepared at a node and written is reproduced.
* `encodeRecord_decodeRecord`: the document of a record is written as the same record.
-/

namespace AvroDocument

namespace Schema

/-- The types directly inside a node. -/
def innerTypes (node : Json) : List Json :=
  match node with
  | .arr members => members
  | .obj ms =>
    if typeName node = "array" then (lookup? "items" ms).toList
    else if typeName node = "map" then (lookup? "values" ms).toList
    else if typeName node = "record" then (fieldsOf node).map typeOf
    else []
  | _ => []

/-- The types inside a schema, itself among them. -/
inductive TypeIn (schema : Json) : Json → Prop
  | whole : TypeIn schema schema
  | inner {node type : Json} (h : TypeIn schema node) (htype : type ∈ innerTypes node) :
      TypeIn schema type

theorem hereditary_typeIn (schema : Json) : Hereditary (TypeIn schema) where
  member h hm := h.inner hm
  items h hkind hitems := h.inner (by simp [innerTypes, hkind, hitems])
  values h hkind hvalues := h.inner (by simp [innerTypes, hkind, hvalues])
  field h hkind hf := h.inner (by simpa [innerTypes, hkind] using ⟨_, hf, rfl⟩)

/-- A list with a schema that is closed under the types inside its nodes holds all of them. -/
theorem TypeIn.mem {schema node : Json} {nodes : List Json} (h : TypeIn schema node)
    (hschema : schema ∈ nodes) (hclosed : ∀ node ∈ nodes, innerTypes node ⊆ nodes) :
    node ∈ nodes := by
  induction h with
  | whole => exact hschema
  | inner _ htype ih => exact hclosed _ ih htype

/-- A node that is no type of identifiers; if it is a record, no field has a default, and the names
that the fields have for a purpose are distinct. -/
structure Unaltering (purpose : String) (node : Json) : Prop where
  noIdentifier : logicalName? node ≠ some "uuid"
  noDefault : typeName node = "record" → ∀ f ∈ fieldsOf node, f.get? "default" = none
  distinct : typeName node = "record" → ((fieldsOf node).map (altName · purpose)).Nodup

/-- A schema of such nodes. -/
def Reproducible (purpose : String) (schema : Json) : Prop :=
  ∀ node, TypeIn schema node → Unaltering purpose node

variable {schema node : Json} {inner : String} {layout : Layout}

theorem isNullMember_iff (hnode : ∀ members, node ≠ .arr members) :
    isNullMember node = decide (typeName node = "null") := by
  cases node with
  | arr members => exact absurd rfl (hnode members)
  | obj ms => exact isNullMember_obj ms
  | str name => rfl
  | null | bool | int | float | decimal => rfl

/-- A plain node is resolved to itself. -/
theorem Plain.resolve (h : Plain inner node) (registry : Registry) :
    registry.resolve node inner = .ok (node, inner) := by
  have hinner := h.inner_eq
  rcases h.alone with hobj | ⟨name, p, rfl, hp⟩
  · cases node with
    | obj ms => exact congrArg (fun inner => Except.ok (Json.obj ms, inner)) hinner
    | _ => cases hobj
  · have hprimitive : primitiveNames.contains name = true := isPrimitive_iff.mpr (by rw [hp]; rfl)
    simp only [Registry.resolve, hprimitive, if_true]

theorem Plain.not_union (h : Plain inner node) (members : List Json) : node ≠ .arr members := by
  rintro rfl
  obtain hobj | ⟨name, p, hname, -⟩ := h.alone
  · cases hobj
  · cases hname

theorem meaning?_null (ms : List (String × Json)) : Layout.meaning? .null ms = none := by
  simp [Layout.meaning?]

/-- The layout of null has no meaning. -/
theorem Describes.layout_null {names : List String} {enclosing : String}
    {ds : List (String × Json)} (h : Describes names enclosing node layout ds)
    (hnull : layout.isNullType = true) : layout = .primitive .null none := by
  cases h with
  | @name _ _ p _ =>
    cases p with
    | null => rfl
    | _ => cases hnull
  | @annotated _ ms p _ =>
    cases p with
    | null => rw [meaning?_null]
    | _ => cases hnull
  | _ => cases hnull

theorem Within.layout_null {P : Json → Prop} {decls : List (String × Json)} {enclosing : String}
    (h : Within P schema decls enclosing node layout) (hnull : layout.isNullType = true) :
    layout = .primitive .null none := by
  obtain ⟨ds, -, hdescribes⟩ := h.inside.described
  exact hdescribes.layout_null hnull

end Schema

open Schema (TypeIn Reproducible Within Sound Form Plain Piece)
open Encoding (prepareNode prepareItems prepareFields fieldDatum isNullText)
open Binary (Stable writeDatum entriesFor)

/-! ## Lists and structs -/

section parts

variable {options : Options} {registry : Schema.Registry} {inner path : String} {α : Type}
  {as : List α}

theorem prepareItems_ok {items : Json} {vs data : List Value} {index : Nat}
    (h : prepareItems options registry inner path index items vs = .ok data) :
    ∀ d ∈ data, ∃ v ∈ vs, ∃ path, prepareNode options registry inner path items v = .ok d := by
  induction vs generalizing index data with
  | nil =>
    rw [prepareItems] at h
    cases h
    exact fun _ hd => absurd hd List.not_mem_nil
  | cons v vs ih =>
    rw [prepareItems] at h
    cases hfirst : prepareNode options registry inner (Pointer.item path index) items v with
    | error e =>
      rw [hfirst] at h
      cases h
    | ok first =>
      rw [hfirst] at h
      cases hrest : prepareItems options registry inner path (index + 1) items vs with
      | error e =>
        simp only [hrest] at h
        cases h
      | ok rest =>
        simp only [hrest] at h
        cases h
        intro d hd
        obtain rfl | hd := List.mem_cons.mp hd
        · exact ⟨v, List.mem_cons_self, _, hfirst⟩
        · obtain ⟨w, hw, hprepare⟩ := ih hrest d hd
          exact ⟨w, List.mem_cons_of_mem _ hw, hprepare⟩

theorem prepareItems_map {items : Json} {value datum : α → Value}
    (h : ∀ a ∈ as, ∀ path, prepareNode options registry inner path items (value a) = .ok (datum a))
    (index : Nat) :
    prepareItems options registry inner path index items (as.map value) = .ok (as.map datum) := by
  induction as generalizing index with
  | nil =>
    rw [List.map_nil, prepareItems]
    rfl
  | cons a as ih =>
    rw [List.map_cons, prepareItems, h a List.mem_cons_self]
    simp only [ih fun b hb => h b (List.mem_cons_of_mem _ hb)]
    rfl

variable {field : α → Json} {entries : List (Key × Value)} {datum : α → Value}

/-- The data of the fields of a record, each on its own. -/
theorem prepareFields_ok {claimed : List String} {data : List (Key × Value)}
    (h : prepareFields options registry inner path claimed (as.map field) entries = .ok data) :
    ∃ datum : α → Value, data = entriesFor (fun a => Schema.nameOf (field a)) datum as ∧
      ∀ a ∈ as, fieldDatum options registry inner path claimed entries (field a) =
        .ok (datum a) := by
  refine ⟨fun a => (fieldDatum options registry inner path claimed entries
    (field a)).toOption.getD .null, ?_⟩
  unfold entriesFor
  induction as generalizing data with
  | nil =>
    rw [List.map_nil, prepareFields] at h
    cases h
    exact ⟨rfl, fun _ ha => absurd ha List.not_mem_nil⟩
  | cons a as ih =>
    rw [List.map_cons, Encoding.prepareFields_cons] at h
    cases hfirst : fieldDatum options registry inner path claimed entries (field a) with
    | error e =>
      rw [hfirst] at h
      cases h
    | ok first =>
      rw [hfirst] at h
      cases hrest : prepareFields options registry inner path claimed (as.map field) entries with
      | error e =>
        simp only [hrest] at h
        cases h
      | ok rest =>
        simp only [hrest] at h
        cases h
        obtain ⟨hdata, hall⟩ := ih hrest
        refine ⟨?_, fun b hb => ?_⟩
        · rw [List.map_cons, hdata]
          dsimp only
          rw [hfirst]
          rfl
        · obtain rfl | hb := List.mem_cons.mp hb
          · dsimp only
            rw [hfirst]
            rfl
          · exact hall b hb

theorem prepareFields_map {claimed : List String}
    (h : ∀ a ∈ as, fieldDatum options registry inner path claimed entries (field a) =
      .ok (datum a)) :
    prepareFields options registry inner path claimed (as.map field) entries =
      .ok (entriesFor (fun a => Schema.nameOf (field a)) datum as) := by
  unfold entriesFor
  induction as with
  | nil =>
    rw [List.map_nil, prepareFields]
    rfl
  | cons a as ih =>
    rw [List.map_cons, Encoding.prepareFields_cons, h a List.mem_cons_self]
    simp only [ih fun b hb => h b (List.mem_cons_of_mem _ hb)]
    rfl

/-- Fields with distinct original keys come back under these. -/
theorem valueFields_map {r : Reconciler} {view : α → Value}
    (hkeys : (as.map fun a => Schema.altName (field a) r.options.altNamesKey).Nodup)
    (h : ∀ a ∈ as, r.fieldValue inner path entries (field a) = .ok (view a))
    {taken : List (Key × Value)}
    (htaken : ∀ a ∈ as, Key.text (Schema.altName (field a) r.options.altNamesKey) ∉
      taken.map (·.1)) :
    r.valueFields inner path taken (as.map field) entries =
      .ok (taken ++ entriesFor (fun a => Schema.altName (field a) r.options.altNamesKey) view as) := by
  unfold entriesFor
  induction as generalizing taken with
  | nil => rw [List.map_nil, List.map_nil, Reconciler.valueFields, List.append_nil]
  | cons a as ih =>
    rw [List.map_cons, List.nodup_cons] at hkeys
    have hnew : ∀ b ∈ as, Key.text (Schema.altName (field b) r.options.altNamesKey) ∉
        (taken ++ [(Key.text (Schema.altName (field a) r.options.altNamesKey), view a)]).map
          (·.1) := by
      intro b hb hmem
      rw [List.map_append, List.mem_append] at hmem
      obtain hmem | hmem := hmem
      · exact htaken b (List.mem_cons_of_mem _ hb) hmem
      · rw [List.map_singleton, List.mem_singleton, Key.text.injEq] at hmem
        exact hkeys.1 (hmem ▸ List.mem_map_of_mem hb)
    rw [List.map_cons, Reconciler.valueFields_cons, h a List.mem_cons_self]
    simp only
    rw [Value.setEntry_new (htaken a List.mem_cons_self),
      ih hkeys.2 (fun b hb => h b (List.mem_cons_of_mem _ hb)) hnew, List.append_assoc]
    rfl

end parts

/-! ## What is written at a node and read back -/

/-- A value that is prepared at a node to a datum, which is written and has its instants in the
calendar. -/
structure Encoded (r : Reconciler) (types : Declarations) (enclosing path : String) (node : Json)
    (layout : Layout) (value datum : Value) : Prop where
  prepared : prepareNode r.options r.registry enclosing path node value = .ok datum
  written : ∃ fuel bytes, writeDatum types fuel layout datum = .ok bytes
  held : datum.Everywhere fun v => v.instantHeld = true

/-- What comes back for a datum: the one that is read, the document that this is reconciled to, and
the datum that is prepared from that. -/
structure Echo where
  stored : Value
  view : Value
  renewed : Value
deriving Inhabited

/-- A datum at a node and what comes back for it. Both data of the echo are written in the same bytes
as the datum. -/
structure Reproduced (r : Reconciler) (types : Declarations) (enclosing : String) (node : Json)
    (layout : Layout) (datum : Value) (echo : Echo) : Prop where
  stable : Stable types layout datum echo.stored
  renewed : Stable types layout echo.renewed echo.stored
  shown : ∀ path, r.valueNode enclosing path node echo.stored = .ok echo.view
  again : ∀ path, prepareNode r.options r.registry enclosing path node echo.view = .ok echo.renewed

/-- The same at a node that is no union. There nothing is null but at null, and nothing is text but
at strings, so that a union around the node hands both on to it. -/
structure ReproducedAlone (r : Reconciler) (types : Declarations) (enclosing : String) (node : Json)
    (layout : Layout) (datum : Value) (echo : Echo) : Prop
    extends Reproduced r types enclosing node layout datum echo where
  present : Schema.typeName node ≠ "null" →
    echo.stored ≠ .null ∧ echo.view ≠ .null ∧ echo.renewed ≠ .null
  text : ∀ s, echo.view = .text s → Schema.typeName node = "string"

/-- Whatever is made of a value, at any node of a schema, is reproduced. -/
def Reproduces (r : Reconciler) (types : Declarations) (schema : Json)
    (decls : List (String × Json)) (value : Value) : Prop :=
  ∀ enclosing path node layout datum, Within (TypeIn schema) schema decls enclosing node layout →
    Encoded r types enclosing path node layout value datum →
    ∃ echo, Reproduced r types enclosing node layout datum echo

theorem exists_forall_mem {α β : Type} [Inhabited β] {as : List α} {P : α → β → Prop}
    (h : ∀ a ∈ as, ∃ b, P a b) : ∃ f : α → β, ∀ a ∈ as, P a (f a) := by
  have hchosen : ∀ a, ∃ b, a ∈ as → P a b := by
    intro a
    by_cases ha : a ∈ as
    · obtain ⟨b, hb⟩ := h a ha
      exact ⟨b, fun _ => hb⟩
    · exact ⟨default, fun ha' => absurd ha' ha⟩
  exact Classical.axiomOfChoice hchosen

section nodes

variable {r : Reconciler} {types : Declarations} {schema node : Json}
  {decls : List (String × Json)} {enclosing inner path : String} {layout : Layout}
  {value datum : Value}

theorem prepareNode_plain {options : Options} {registry : Schema.Registry}
    (h : Plain inner node) (v : Value) (path : String) :
    prepareNode options registry inner path node v =
      Encoding.preparePlain options registry inner path node v := by
  rw [Encoding.prepareNode_other h.not_union, h.resolve]

theorem valueNode_plain (h : Plain inner node) (v : Value) (path : String) :
    r.valueNode inner path node v = r.valuePlain inner path node v := by
  rw [Reconciler.valueNode_other h.not_union, h.resolve]

/-! ### Primitive types -/

section primitive

variable {type : Primitive} {meaning : Option Meaning}

theorem prepareNode_primitive (h : Plain inner node)
    (hkind : Primitive.ofName? (Schema.typeName node) = some type) (v : Value) (path : String) :
    prepareNode r.options r.registry inner path node v =
      match v with
      | .null =>
        if Schema.typeName node = "null" then .ok .null else Coercion.refuse path node .null
      | v => coerce r.options path node v := by
  rw [prepareNode_plain h]
  unfold Encoding.preparePlain
  exact (if_neg (Schema.not_kind hkind rfl)).trans (if_neg (Schema.not_kind hkind rfl))

theorem valueNode_primitive (h : Plain inner node)
    (hkind : Primitive.ofName? (Schema.typeName node) = some type) (v : Value) (path : String) :
    r.valueNode inner path node v = Decoding.scalarValue r.options path node v := by
  rw [valueNode_plain h]
  unfold Reconciler.valuePlain
  rw [if_neg (Schema.not_kind hkind rfl), if_neg (Schema.not_kind hkind rfl),
    Compatibility.opaqueKinds_primitive hkind, if_neg Bool.false_ne_true]

theorem reproduced_primitive (hplain : Plain inner node)
    (hkind : Primitive.ofName? (Schema.typeName node) = some type)
    (hmeaning : (∃ name, node = .str name ∧ meaning = none) ∨
      ∃ ms, node = .obj ms ∧ meaning = Layout.meaning? type ms)
    (huuid : Schema.logicalName? node ≠ some "uuid")
    (h : Encoded r types inner path node (.primitive type meaning) value datum) :
    ∃ echo, ReproducedAlone r types inner node (.primitive type meaning) datum echo := by
  obtain ⟨hprepared, ⟨fuel, bytes, hwritten⟩, hheld⟩ := h
  rw [prepareNode_primitive hplain hkind] at hprepared
  by_cases hnull : type = .null
  · subst hnull
    have htype : Schema.typeName node = "null" := Primitive.eq_name hkind
    obtain rfl : datum = .null := by
      split at hprepared
      · rw [if_pos htype] at hprepared
        exact (Except.ok.inj hprepared).symm
      · exact coerce_atNull htype hprepared
    obtain rfl : meaning = none := by
      obtain ⟨_, -, rfl⟩ | ⟨ms, -, rfl⟩ := hmeaning
      · rfl
      · exact Schema.meaning?_null ms
    refine ⟨⟨.null, .null, .null⟩, ⟨Binary.stable_null, Binary.stable_null, fun path => ?_,
      fun path => ?_⟩, fun h => absurd htype h, by simp⟩
    · rw [valueNode_primitive hplain hkind]
      exact if_pos htype
    · rw [prepareNode_primitive hplain hkind]
      exact if_pos htype
  · have htype : Schema.typeName node ≠ "null" := by
      intro htype
      rw [htype] at hkind
      cases hkind
      exact hnull rfl
    have hcoerce : coerce r.options path node value = .ok datum := by
      split at hprepared
      · rw [if_neg htype] at hprepared
        cases hprepared
      · exact hprepared
    obtain ⟨stored, view, hrenewed⟩ :=
      renewed_scalar hkind hmeaning huuid hnull hcoerce hheld.here hwritten
    obtain ⟨hstored, hview⟩ := hrenewed.present
    refine ⟨⟨stored, view, view⟩, ⟨hrenewed.stable, hrenewed.renewed, fun path => ?_, fun path => ?_⟩,
      fun _ => ⟨hstored, hview, hview⟩, hrenewed.text⟩
    · rw [valueNode_primitive hplain hkind]
      unfold Decoding.scalarValue
      split
      · rename_i hnull
        exact absurd hnull hstored
      · rw [hrenewed.shown path]
    · rw [prepareNode_primitive hplain hkind]
      split
      · rename_i hnull
        exact absurd hnull hview
      · exact hrenewed.again path

end primitive

/-! ### Arrays -/

theorem prepareNode_array (h : Plain inner node) (hkind : Schema.typeName node = "array")
    (v : Value) (path : String) :
    prepareNode r.options r.registry inner path node v =
      match v.items? with
      | some vs =>
        match prepareItems r.options r.registry inner path 0 (Schema.itemsOf node) vs with
        | .error e => .error e
        | .ok data => .ok (.list data)
      | none => Coercion.refuse path node v := by
  rw [prepareNode_plain h]
  unfold Encoding.preparePlain
  exact (if_neg (by rw [hkind]; decide)).trans (if_pos hkind)

theorem valueNode_array (h : Plain inner node) (hkind : Schema.typeName node = "array")
    (vs : List Value) (path : String) :
    r.valueNode inner path node (.list vs) =
      match r.valueItems inner path 0 (Schema.itemsOf node) vs with
      | .error e => .error e
      | .ok values => .ok (.list values) := by
  rw [valueNode_plain h]
  unfold Reconciler.valuePlain
  exact (if_neg (by rw [hkind]; decide)).trans (if_pos hkind)

theorem reproduced_array {items : Layout} (hplain : Plain inner node)
    (hkind : Schema.typeName node = "array")
    (hitems : Within (TypeIn schema) schema decls inner (Schema.itemsOf node) items)
    (ih : ∀ w, sizeOf w < sizeOf value → Reproduces r types schema decls w)
    (h : Encoded r types inner path node (.array items) value datum) :
    ∃ echo, ReproducedAlone r types inner node (.array items) datum echo := by
  obtain ⟨hprepared, ⟨fuel, bytes, hwritten⟩, hheld⟩ := h
  rw [prepareNode_array hplain hkind] at hprepared
  split at hprepared
  swap
  · cases hprepared
  rename_i vs hvs
  split at hprepared
  · cases hprepared
  rename_i data hdata
  cases hprepared
  have hsize : ∀ v ∈ vs, sizeOf v < sizeOf value := fun v hv =>
    Nat.lt_trans (List.sizeOf_lt_of_mem hv) (Value.sizeOf_lt_of_items? hvs)
  have hparts : ∀ d ∈ data, ∃ part, writeDatum types fuel items d = .ok part := by
    rw [writeDatum] at hwritten
    simp only [Value.items?] at hwritten
    cases hbody : Binary.writeItems types fuel items data with
    | error e =>
      rw [hbody] at hwritten
      cases hwritten
    | ok body =>
      rw [← List.map_id data, Binary.writeItems_eq] at hbody
      obtain ⟨part, -, hpart⟩ := Binary.joined_ok hbody
      exact fun d hd => ⟨part d, hpart d hd⟩
  have hall : ∀ d ∈ data, ∃ echo, Reproduced r types inner (Schema.itemsOf node) items d echo := by
    intro d hd
    obtain ⟨v, hv, path, hprepare⟩ := prepareItems_ok hdata d hd
    obtain ⟨part, hpart⟩ := hparts d hd
    exact ih v (hsize v hv) inner path _ _ d hitems ⟨hprepare, ⟨fuel, part, hpart⟩, hheld.child hd⟩
  obtain ⟨echo, hecho⟩ := exists_forall_mem hall
  have hstable : Stable types (.array items) (.list (data.map id))
      (.list (data.map fun d => (echo d).stored)) :=
    Binary.stable_array fun d hd => (hecho d hd).stable
  rw [List.map_id] at hstable
  refine ⟨⟨.list (data.map fun d => (echo d).stored), .list (data.map fun d => (echo d).view),
      .list (data.map fun d => (echo d).renewed)⟩,
    ⟨hstable, Binary.stable_array fun d hd => (hecho d hd).renewed, fun path => ?_, fun path => ?_⟩,
    fun _ => ⟨by simp, by simp, by simp⟩, by simp⟩
  · rw [valueNode_array hplain hkind,
      Inference.value_items fun d hd path => (hecho d hd).shown path]
  · rw [prepareNode_array hplain hkind]
    simp only [Value.items?, prepareItems_map fun d hd path => (hecho d hd).again path]

/-! ### Records -/

theorem prepareNode_record (h : Plain inner node) (hkind : Schema.typeName node = "record")
    (v : Value) (path : String) :
    prepareNode r.options r.registry inner path node v =
      match v with
      | .struct entries =>
        match prepareFields r.options r.registry inner path
            (Encoding.claimedNames r.options (Schema.fieldsOf node)) (Schema.fieldsOf node)
            entries with
        | .error e => .error e
        | .ok data =>
          if r.options.strictSchema then
            match Encoding.checkDeclared path node
                ((Schema.fieldsOf node).filterMap (Encoding.sourceKey? r.options
                  (Encoding.claimedNames r.options (Schema.fieldsOf node)) entries)) entries with
            | .error e => .error e
            | .ok () => .ok (.struct data)
          else .ok (.struct data)
      | v => Coercion.refuse path node v := by
  rw [prepareNode_plain h]
  unfold Encoding.preparePlain
  exact if_pos hkind

theorem prepareNode_record_ok (h : Plain inner node) (hkind : Schema.typeName node = "record")
    (hprepared : prepareNode r.options r.registry inner path node value = .ok datum) :
    ∃ entries data, value = .struct entries ∧ datum = .struct data ∧
      prepareFields r.options r.registry inner path
        (Encoding.claimedNames r.options (Schema.fieldsOf node)) (Schema.fieldsOf node) entries =
          .ok data := by
  rw [prepareNode_record h hkind] at hprepared
  split at hprepared
  swap
  · cases hprepared
  rename_i entries
  split at hprepared
  · cases hprepared
  rename_i data hdata
  refine ⟨entries, data, rfl, ?_, hdata⟩
  split at hprepared
  · split at hprepared <;> cases hprepared
    rfl
  · cases hprepared
    rfl

/-- The datum of a field: that of an entry, or null when the field is nullable and there is none. -/
theorem fieldDatum_ok {claimed : List String} {entries : List (Key × Value)} {f : Json}
    (h : fieldDatum r.options r.registry inner path claimed entries f = .ok datum)
    (hdefault : f.get? "default" = none) :
    (∃ key v path, Value.member? key entries = some v ∧
      prepareNode r.options r.registry inner path (Schema.typeOf f) v = .ok datum) ∨
    datum = .null ∧ Schema.isNullable (Schema.typeOf f) = true := by
  have habsent (h : Encoding.absentValue r.options path f = .ok datum) :
      datum = .null ∧ Schema.isNullable (Schema.typeOf f) = true := by
    unfold Encoding.absentValue at h
    simp only [hdefault] at h
    split at h
    · rename_i hnullable
      cases h
      exact ⟨rfl, hnullable⟩
    · cases h
  unfold fieldDatum at h
  split at h
  · exact .inr (habsent h)
  · rename_i key _
    split at h
    · exact .inr (habsent h)
    · rename_i v hv
      exact .inl ⟨key, v, _, hv, h⟩

/-- Null is taken by whatever is nullable. -/
theorem prepareNode_absent {options : Options} {registry : Schema.Registry}
    (h : Schema.isNullable node = true) (path : String) :
    prepareNode options registry inner path node .null = .ok .null := by
  cases node with
  | arr members =>
    rw [Encoding.prepareNode_union]
    split
    · rw [h]
      rfl
    · exact if_pos h
  | str name =>
    obtain rfl : name = "null" := by simpa [Schema.isNullable] using h
    exact Inference.prepare_null
  | _ => cases h

section record

variable {pieces : List Piece} {datumOf : Piece → Value}

/-- Fields are reproduced one by one. -/
theorem reproduced_fields {entries : List (Key × Value)} {claimed : List String} {fuel : Nat}
    (hdefault : ∀ p ∈ pieces, p.node.get? "default" = none)
    (hpieces : ∀ p ∈ pieces, Within (TypeIn schema) schema decls inner (Schema.typeOf p.node)
      p.layout)
    (ih : ∀ w, sizeOf w < sizeOf (Value.struct entries) → Reproduces r types schema decls w)
    (hdatum : ∀ p ∈ pieces, fieldDatum r.options r.registry inner path claimed entries p.node =
      .ok (datumOf p))
    (hwritten : ∀ p ∈ pieces, ∃ part, writeDatum types fuel p.layout (datumOf p) = .ok part)
    (hheld : ∀ p ∈ pieces, (datumOf p).Everywhere fun v => v.instantHeld = true) :
    ∃ echo : Piece → Echo, ∀ p ∈ pieces,
      Reproduced r types inner (Schema.typeOf p.node) p.layout (datumOf p) (echo p) := by
  have hall : ∀ p ∈ pieces, ∃ echo,
      Reproduced r types inner (Schema.typeOf p.node) p.layout (datumOf p) echo := by
    intro p hp
    obtain ⟨part, hpart⟩ := hwritten p hp
    have hbelow {w : Value} {path : String} (hsize : sizeOf w < sizeOf (Value.struct entries))
        (hprepare : prepareNode r.options r.registry inner path (Schema.typeOf p.node) w =
          .ok (datumOf p)) :
        ∃ echo, Reproduced r types inner (Schema.typeOf p.node) p.layout (datumOf p) echo :=
      ih w hsize inner path _ _ _ (hpieces p hp) ⟨hprepare, ⟨fuel, part, hpart⟩, hheld p hp⟩
    obtain ⟨key, v, path', hv, hprepare⟩ | ⟨hnull, hnullable⟩ :=
      fieldDatum_ok (hdatum p hp) (hdefault p hp)
    · exact hbelow
        (Nat.lt_trans (Value.sizeOf_lt_of_member? hv) (Value.sizeOf_lt_struct entries)) hprepare
    · -- A field that is absent is one that holds null.
      have hsize : sizeOf Value.null < sizeOf (Value.struct entries) := by
        simp only [Value.null.sizeOf_spec, Value.struct.sizeOf_spec]
        have : 0 < sizeOf entries := by cases entries <;> simp
        omega
      have hprepare : prepareNode r.options r.registry inner path (Schema.typeOf p.node) .null =
          .ok (datumOf p) := by
        rw [hnull]
        exact prepareNode_absent hnullable path
      exact hbelow hsize hprepare
  exact exists_forall_mem hall

variable {entries : List (Key × Value)} {stored view renewed : Piece → Value}

/-- Fields are read back under their original keys, from entries under their names. -/
theorem valueNode_fields (hplain : Plain inner node) (hkind : Schema.typeName node = "record")
    (hfields : Schema.fieldsOf node = pieces.map (·.node))
    (hkeys : (pieces.map fun p => Schema.altName p.node r.options.altNamesKey).Nodup)
    (hmember : ∀ p ∈ pieces, Value.member? (Schema.nameOf p.node) entries = some (stored p))
    (hentries : ∀ e ∈ entries, ∃ p ∈ pieces, e.1 = .text (Schema.nameOf p.node))
    (h : ∀ p ∈ pieces, ∀ path, r.valueNode inner path (Schema.typeOf p.node) (stored p) =
      .ok (view p)) (path : String) :
    r.valueNode inner path node (.struct entries) =
      .ok (.struct (entriesFor (fun p => Schema.altName p.node r.options.altNamesKey) view
        pieces)) := by
  have hsource : ∀ p ∈ pieces, Decoding.sourceName? entries p.node =
      some (Schema.nameOf p.node) := by
    intro p hp
    rw [Decoding.sourceName?]
    exact List.find?_cons_of_pos (by rw [hmember p hp]; rfl)
  have hvalue : ∀ p ∈ pieces, r.fieldValue inner path entries p.node = .ok (view p) := by
    intro p hp
    rw [Reconciler.fieldValue, hsource p hp]
    simp only
    rw [hmember p hp]
    exact h p hp _
  have hknown : ∀ e ∈ entries, ∃ name ∈
      (pieces.map (·.node)).filterMap (Decoding.sourceName? entries), e.1 = .text name := by
    intro e he
    obtain ⟨p, hp, hkey⟩ := hentries e he
    refine ⟨_, ?_, hkey⟩
    rw [List.filterMap_map, List.mem_filterMap]
    exact ⟨p, hp, hsource p hp⟩
  have hvalues : r.valueFields inner path [] (pieces.map (·.node)) entries = .ok ([] ++ _) :=
    valueFields_map hkeys hvalue fun _ _ => List.not_mem_nil
  rw [valueNode_plain hplain]
  unfold Reconciler.valuePlain
  rw [if_pos hkind, hfields]
  simp only [hvalues, Inference.checkKnown_ok hknown, ite_self]
  rfl

/-- Fields are prepared again from entries under their original keys. -/
theorem prepareNode_fields (hplain : Plain inner node) (hkind : Schema.typeName node = "record")
    (hfields : Schema.fieldsOf node = pieces.map (·.node))
    (hmember : ∀ p ∈ pieces,
      Value.member? (Schema.altName p.node r.options.altNamesKey) entries = some (view p))
    (hentries : ∀ e ∈ entries, ∃ p ∈ pieces,
      e.1 = .text (Schema.altName p.node r.options.altNamesKey))
    (h : ∀ p ∈ pieces, ∀ path, prepareNode r.options r.registry inner path (Schema.typeOf p.node)
      (view p) = .ok (renewed p)) (path : String) :
    prepareNode r.options r.registry inner path node (.struct entries) =
      .ok (.struct (entriesFor (fun p => Schema.nameOf p.node) renewed pieces)) := by
  have hsource (claimed : List String) : ∀ p ∈ pieces,
      Encoding.sourceKey? r.options claimed entries p.node =
        some (Schema.altName p.node r.options.altNamesKey) := by
    intro p hp
    rw [Encoding.sourceKey?]
    exact if_pos (by rw [Encoding.hasEntry, hmember p hp]; rfl)
  have hdatum (claimed : List String) : ∀ p ∈ pieces,
      fieldDatum r.options r.registry inner path claimed entries p.node = .ok (renewed p) := by
    intro p hp
    rw [fieldDatum, hsource claimed p hp]
    simp only
    rw [hmember p hp]
    exact h p hp _
  have hknown (claimed : List String) : ∀ e ∈ entries, ∃ key ∈
      (pieces.map (·.node)).filterMap (Encoding.sourceKey? r.options claimed entries),
        e.1 = .text key := by
    intro e he
    obtain ⟨p, hp, hkey⟩ := hentries e he
    refine ⟨_, ?_, hkey⟩
    rw [List.filterMap_map, List.mem_filterMap]
    exact ⟨p, hp, hsource claimed p hp⟩
  rw [prepareNode_record hplain hkind, hfields]
  simp only [prepareFields_map (hdatum _), Inference.checkDeclared_ok (hknown _), ite_self]

theorem reproduced_record {name : String} (hplain : Plain inner node)
    (hkind : Schema.typeName node = "record")
    (hfields : Schema.fieldsOf node = pieces.map (·.node))
    (hnames : (pieces.map fun p => Schema.nameOf p.node).Nodup)
    (hkeys : (pieces.map fun p => Schema.altName p.node r.options.altNamesKey).Nodup)
    (hdefault : ∀ p ∈ pieces, p.node.get? "default" = none)
    (hpieces : ∀ p ∈ pieces, Within (TypeIn schema) schema decls inner (Schema.typeOf p.node)
      p.layout)
    (ih : ∀ w, sizeOf w < sizeOf value → Reproduces r types schema decls w)
    (h : Encoded r types inner path node (.record name (pieces.map Piece.field)) value datum) :
    ∃ echo, ReproducedAlone r types inner node (.record name (pieces.map Piece.field)) datum
      echo := by
  obtain ⟨hprepared, ⟨fuel, bytes, hwritten⟩, hheld⟩ := h
  obtain ⟨entries, data, rfl, rfl, hdata⟩ := prepareNode_record_ok hplain hkind hprepared
  rw [hfields] at hdata
  obtain ⟨datumOf, rfl, hdatum⟩ := prepareFields_ok hdata
  have hmember : ∀ p ∈ pieces, Value.member? (Schema.nameOf p.node)
      (entriesFor (fun p => Schema.nameOf p.node) datumOf pieces) = some (datumOf p) :=
    fun p hp => Binary.member?_entriesFor hnames hp
  have hlayout : pieces.map Piece.field =
      Binary.fieldsFor (fun p => Schema.nameOf p.node) (·.default) (·.layout) pieces := rfl
  rw [hlayout] at hwritten ⊢
  rw [Binary.writeRecord_eq name hmember] at hwritten
  obtain ⟨part, -, hpart⟩ := Binary.joined_ok hwritten
  obtain ⟨echo, hecho⟩ := reproduced_fields hdefault hpieces ih hdatum
    (fun p hp => ⟨part p, hpart p hp⟩)
    fun p hp => hheld.entry (List.mem_map.mpr ⟨p, hp, rfl⟩)
  refine ⟨⟨.struct (entriesFor (fun p => Schema.nameOf p.node) (fun p => (echo p).stored) pieces),
      .struct (entriesFor (fun p => Schema.altName p.node r.options.altNamesKey)
        (fun p => (echo p).view) pieces),
      .struct (entriesFor (fun p => Schema.nameOf p.node) (fun p => (echo p).renewed) pieces)⟩,
    ⟨Binary.stable_record name hnames fun p hp => (hecho p hp).stable,
      Binary.stable_record name hnames fun p hp => (hecho p hp).renewed, fun path => ?_,
      fun path => ?_⟩, fun _ => ⟨by simp, by simp, by simp⟩, by simp⟩
  · exact valueNode_fields hplain hkind hfields hkeys
      (fun p hp => Binary.member?_entriesFor hnames hp)
      (fun e he => by obtain ⟨p, hp, rfl⟩ := List.mem_map.mp he; exact ⟨p, hp, rfl⟩)
      (fun p hp => (hecho p hp).shown) path
  · exact prepareNode_fields hplain hkind hfields
      (fun p hp => Binary.member?_entriesFor hkeys hp)
      (fun e he => by obtain ⟨p, hp, rfl⟩ := List.mem_map.mp he; exact ⟨p, hp, rfl⟩)
      (fun p hp => (hecho p hp).again) path

end record

/-! ### Nodes of a schema -/

/-- Documents are prepared and data reconciled with one schema. -/
structure Setting (r : Reconciler) (schema : Json) (top : Layout) (decls : List (String × Json)) :
    Prop where
  registry : r.registry = Schema.Registry.ofSchema schema
  sound : Sound (TypeIn schema) schema top decls
  reproducible : Reproducible r.options.altNamesKey schema

variable {top l l' : Layout}

/-- Nothing but null is prepared to null, outside of unions. -/
theorem prepareNode_null (hs : Setting r schema top decls)
    (hwithin : Within (TypeIn schema) schema decls enclosing node l)
    (hnode : ∀ members, node ≠ .arr members)
    (h : prepareNode r.options r.registry enclosing path node value = .ok .null) :
    Schema.typeName node = "null" := by
  obtain ⟨plain, inner, l', hresolve, hplain, hisPlain, -, halike⟩ := hwithin.resolve hs.sound hnode
  rw [Encoding.prepareNode_other hnode, hs.registry, hresolve] at h
  simp only at h
  rw [← prepareNode_plain hisPlain, ← hs.registry] at h
  cases hplain.form hs.sound.hereditary hisPlain with
  | primitive hkind =>
    obtain ⟨rfl, -⟩ | hrecord := halike
    · rw [prepareNode_primitive hisPlain hkind] at h
      split at h
      · by_contra hnull
        rw [if_neg hnull] at h
        cases h
      · exact coerce_null h
    · exact absurd hrecord (Schema.not_kind hkind rfl)
  | array hkind =>
    rw [prepareNode_array hisPlain hkind] at h
    split at h
    · split at h <;> cases h
    · cases h
  | record hkind =>
    obtain ⟨_, _, -, hdatum, -⟩ := prepareNode_record_ok hisPlain hkind h
    cases hdatum

/-- Null does not fit the layout of another type, outside of unions. -/
theorem not_fits_absent (hs : Sound (TypeIn schema) schema top decls)
    (hwithin : Within (TypeIn schema) schema decls enclosing node l)
    (hnode : ∀ members, node ≠ .arr members) (hnull : l.isNullType = false) (fuel : Nat) :
    Binary.fits top.declarations fuel l .null = .ok false := by
  obtain ⟨plain, inner, l', -, hplain, hisPlain, hstands, halike⟩ :=
    hwithin.resolve hs hnode
  have hfits (fuel : Nat) : Binary.fits top.declarations fuel l' .null = .ok false := by
    cases hplain.form hs.hereditary hisPlain with
    | @primitive type meaning hkind =>
      obtain ⟨-, rfl⟩ | hrecord := halike
      · have hunwrap : Binary.unwrap meaning .null = .ok .null := by
          rcases meaning with _ | (_ | _ | _ | _ | _ | _ | _ | _ | _) <;> rfl
        rw [Binary.fits, hunwrap]
        cases type with
        | null => cases hnull
        | _ => rfl
      · exact absurd hrecord (Schema.not_kind hkind rfl)
    | array => exact (Binary.fits.eq_def ..).trans rfl
    | record => exact (Binary.fits.eq_def ..).trans rfl
  obtain rfl | ⟨name, rfl, hlookup⟩ := hstands
  · exact hfits fuel
  · cases fuel with
    | zero => rw [Binary.fits.eq_def]
    | succ fuel =>
      rw [Binary.fits.eq_def]
      simp only [hlookup]
      exact hfits fuel

/-- Data at a node that is no union are reproduced. -/
theorem reproduced_alone (hs : Setting r schema top decls)
    (hwithin : Within (TypeIn schema) schema decls enclosing node l)
    (hnode : ∀ members, node ≠ .arr members)
    (ih : ∀ w, sizeOf w < sizeOf value → Reproduces r top.declarations schema decls w)
    (h : Encoded r top.declarations enclosing path node l value datum) :
    ∃ echo, ReproducedAlone r top.declarations enclosing node l datum echo := by
  obtain ⟨plain, inner, l', hresolve, hplain, hisPlain, hstands, halike⟩ :=
    hwithin.resolve hs.sound hnode
  have hprepare (path : String) (v : Value) :
      prepareNode r.options r.registry enclosing path node v =
        prepareNode r.options r.registry inner path plain v := by
    rw [Encoding.prepareNode_other hnode, prepareNode_plain hisPlain, hs.registry, hresolve]
  have hvalue (path : String) (v : Value) :
      r.valueNode enclosing path node v = r.valueNode inner path plain v := by
    rw [Reconciler.valueNode_other hnode, valueNode_plain hisPlain, hs.registry, hresolve]
  have hplainEncoded : Encoded r top.declarations inner path plain l' value datum := by
    refine ⟨hprepare path value ▸ h.prepared, ?_, h.held⟩
    obtain ⟨fuel, bytes, hwritten⟩ := h.written
    obtain rfl | ⟨name, rfl, hlookup⟩ := hstands
    · exact ⟨fuel, bytes, hwritten⟩
    · cases fuel with
      | zero =>
        rw [writeDatum.eq_def] at hwritten
        cases hwritten
      | succ fuel =>
        rw [writeDatum.eq_def] at hwritten
        simp only [hlookup] at hwritten
        exact ⟨fuel, bytes, hwritten⟩
  have hunaltering := hs.reproducible plain hplain.holds
  obtain ⟨echo, hreproduced⟩ : ∃ echo,
      ReproducedAlone r top.declarations inner plain l' datum echo := by
    cases hplain.form hs.sound.hereditary hisPlain with
    | primitive hkind hmeaning =>
      exact reproduced_primitive hisPlain hkind hmeaning hunaltering.noIdentifier hplainEncoded
    | array hkind hitems => exact reproduced_array hisPlain hkind hitems ih hplainEncoded
    | @record pieces hkind hfields _ hnames hpieces =>
      refine reproduced_record hisPlain hkind hfields hnames ?_ ?_ hpieces ih hplainEncoded
      · have hdistinct := hunaltering.distinct hkind
        rwa [hfields, List.map_map] at hdistinct
      · intro p hp
        refine hunaltering.noDefault hkind p.node ?_
        rw [hfields]
        exact List.mem_map_of_mem hp
  have hstable {d : Value} (hinner : Stable top.declarations l' d echo.stored) :
      Stable top.declarations l d echo.stored := by
    obtain rfl | ⟨name, rfl, hlookup⟩ := hstands
    · exact hinner
    · exact Binary.stable_reference hinner hlookup
  refine ⟨echo, ⟨hstable hreproduced.stable, hstable hreproduced.renewed, fun path => ?_,
    fun path => ?_⟩, fun hnull => ?_, fun s hs => ?_⟩
  · rw [hvalue]
    exact hreproduced.shown path
  · rw [hprepare]
    exact hreproduced.again path
  · obtain ⟨rfl, -⟩ | hrecord := halike
    · exact hreproduced.present hnull
    · exact hreproduced.present (by rw [hrecord]; decide)
  · obtain ⟨rfl, -⟩ | hrecord := halike
    · exact hreproduced.text s hs
    · have hstring := hreproduced.text s hs
      rw [hrecord] at hstring
      exact absurd hstring (by decide)

/-! ### Unions -/

theorem eq_of_countP_le_one {α : Type} {as : List α} {p : α → Bool} (h : as.countP p ≤ 1)
    {a b : α} (ha : a ∈ as) (hb : b ∈ as) (hpa : p a = true) (hpb : p b = true) : a = b := by
  rw [List.countP_eq_length_filter] at h
  have hina := List.mem_filter.mpr ⟨ha, hpa⟩
  have hinb := List.mem_filter.mpr ⟨hb, hpb⟩
  match hfilter : as.filter p with
  | [] =>
    rw [hfilter] at hina
    cases hina
  | [c] =>
    rw [hfilter, List.mem_singleton] at hina hinb
    rw [hina, hinb]
  | c :: c' :: cs =>
    rw [hfilter, List.length_cons, List.length_cons] at h
    omega

section union

variable {members : List Json}

/-- Null in a union is read back as it was written. -/
theorem stable_nullable (hs : Sound (TypeIn schema) schema top decls)
    (hwithin : Within (TypeIn schema) schema decls enclosing (.arr members) l) :
    Stable top.declarations l .null .null := by
  obtain ⟨pieces, rfl, rfl, -, hpieces⟩ := hwithin.members hs.hereditary
  refine Binary.stable_absent fun layout hlayout => ?_
  obtain ⟨p, hp, rfl⟩ := List.mem_map.mp hlayout
  obtain ⟨hinside, -, hflat⟩ := hpieces p hp
  by_cases hnull : p.layout.isNullType = true
  · exact .inl (hinside.layout_null hnull)
  · exact .inr (not_fits_absent hs hinside hflat (Bool.eq_false_iff.mpr hnull))

/-- Null in a union is reproduced. -/
theorem reproduced_absent (hs : Setting r schema top decls)
    (hwithin : Within (TypeIn schema) schema decls enclosing (.arr members) l)
    (hnullable : Schema.isNullable (.arr members) = true) :
    Reproduced r top.declarations enclosing (.arr members) l .null ⟨.null, .null, .null⟩ := by
  refine ⟨stable_nullable hs.sound hwithin, stable_nullable hs.sound hwithin, fun path => ?_,
    fun path => ?_⟩
  · rw [Reconciler.valueNode_union]
    exact (if_pos rfl).trans (if_pos hnullable)
  · exact prepareNode_absent hnullable path

/-- What is not null is read back in a union as it is at the one member that is not null. -/
theorem stable_present {pieces : List Piece} {p : Piece} {types : Declarations} {stored : Value}
    (hone : pieces.countP (fun p => !Schema.isNullMember p.node) ≤ 1)
    (hnulls : ∀ q ∈ pieces, Schema.isNullMember q.node = true → q.layout = .primitive .null none)
    (hp : p ∈ pieces) (hpnull : Schema.isNullMember p.node = false) (hdatum : datum ≠ .null)
    (hstored : stored ≠ .null) (h : Stable types p.layout datum stored) :
    Stable types (.union (pieces.map (·.layout))) datum stored := by
  refine Binary.stable_union hdatum hstored h.size fun layout hlayout => ?_
  obtain ⟨q, hq, rfl⟩ := List.mem_map.mp hlayout
  by_cases hqnull : Schema.isNullMember q.node = true
  · exact .inl (hnulls q hq hqnull)
  · obtain rfl : q = p := eq_of_countP_le_one hone hq hp (by simpa using hqnull)
      (by rw [hpnull]; rfl)
    exact .inr h

/-- The member of a union that a datum other than null is written as. -/
theorem written_member {pieces : List Piece} {p : Piece} {types : Declarations}
    (hone : pieces.countP (fun p => !Schema.isNullMember p.node) ≤ 1)
    (hpieces : ∀ q ∈ pieces, Schema.isNullMember q.node = true → q.layout = .primitive .null none)
    (hp : p ∈ pieces) (hpnull : Schema.isNullMember p.node = false) (hdatum : datum ≠ .null)
    (h : ∃ fuel bytes, writeDatum types fuel (.union (pieces.map (·.layout))) datum = .ok bytes) :
    ∃ fuel bytes, writeDatum types fuel p.layout datum = .ok bytes := by
  obtain ⟨fuel, bytes, hwritten⟩ := h
  rw [writeDatum] at hwritten
  split at hwritten
  · cases hwritten
  · cases hwritten
  · rename_i i hmember
    obtain ⟨layout, hlayout, hfits⟩ := Binary.memberFor?_some hmember
    rw [Binary.writeMember_eq hlayout] at hwritten
    obtain ⟨q, hq, rfl⟩ := List.mem_map.mp (List.mem_of_getElem? hlayout)
    have hqnull : Schema.isNullMember q.node = false := by
      by_contra hnull
      rw [hpieces q hq (by simpa using hnull), Binary.not_fits_null _ _ hdatum] at hfits
      cases hfits
    obtain rfl : q = p :=
      eq_of_countP_le_one hone hq hp (by rw [hqnull]; rfl) (by rw [hpnull]; rfl)
    cases hbody : writeDatum types fuel q.layout datum with
    | error e =>
      rw [hbody] at hwritten
      cases hwritten
    | ok body => exact ⟨fuel, body, hbody⟩

/-- Data in a union are reproduced. -/
theorem reproduced_union (hs : Setting r schema top decls)
    (hwithin : Within (TypeIn schema) schema decls enclosing (.arr members) l)
    (ih : ∀ w, sizeOf w < sizeOf value → Reproduces r top.declarations schema decls w)
    (h : Encoded r top.declarations enclosing path (.arr members) l value datum) :
    ∃ echo, Reproduced r top.declarations enclosing (.arr members) l datum echo := by
  have habsent (hprepared : (if Schema.isNullable (.arr members) then .ok .null
      else Coercion.refuse path (.arr members) value : Except Failure Value) = .ok datum) :
      ∃ echo, Reproduced r top.declarations enclosing (.arr members) l datum echo := by
    split at hprepared
    · rename_i hnullable
      cases hprepared
      exact ⟨_, reproduced_absent hs hwithin hnullable⟩
    · cases hprepared
  have hprepared := h.prepared
  rw [Encoding.prepareNode_union] at hprepared
  cases hfind : members.find? fun m => !Schema.isNullMember m with
  | none =>
    rw [hfind] at hprepared
    simp only at hprepared
    split at hprepared
    · rename_i hnull
      rw [Bool.and_eq_true] at hnull
      cases hprepared
      exact ⟨_, reproduced_absent hs hwithin hnull.2⟩
    · cases hprepared
  | some member =>
    rw [hfind] at hprepared
    simp only at hprepared
    split at hprepared
    · exact habsent hprepared
    obtain ⟨pieces, rfl, rfl, hone, hpieces⟩ := hwithin.members hs.sound.hereditary
    obtain ⟨p, hp, rfl⟩ := List.mem_map.mp (List.mem_of_find?_eq_some hfind)
    obtain ⟨hinside, hnullType, hflat⟩ := hpieces p hp
    have hpnull : Schema.isNullMember p.node = false := by
      simpa using List.find?_some hfind
    have htype : Schema.typeName p.node ≠ "null" := by
      rw [Schema.isNullMember_iff hflat] at hpnull
      exact of_decide_eq_false hpnull
    have hdatum : datum ≠ .null := by
      rintro rfl
      exact htype (prepareNode_null hs hinside hflat hprepared)
    have hnulls : ∀ q ∈ pieces, Schema.isNullMember q.node = true →
        q.layout = .primitive .null none := by
      intro q hq hnull
      obtain ⟨hinside, hnullType, -⟩ := hpieces q hq
      exact hinside.layout_null (hnullType.trans hnull)
    obtain ⟨echo, hreproduced⟩ := reproduced_alone hs hinside hflat ih
      ⟨hprepared, written_member hone hnulls hp hpnull hdatum h.written, h.held⟩
    obtain ⟨hstored, hview, hrenewed⟩ := hreproduced.present htype
    refine ⟨echo, stable_present hone hnulls hp hpnull hdatum hstored hreproduced.stable,
      stable_present hone hnulls hp hpnull hrenewed hstored hreproduced.renewed,
      fun path => ?_, fun path => ?_⟩
    · rw [Reconciler.valueNode_union, Encoding.isNull_eq hstored, hfind]
      exact hreproduced.shown path
    · have htext : isNullText r.options p.node echo.view = false := by
        cases hview : echo.view with
        | text s => simp [isNullText, hreproduced.text s hview]
        | _ => rfl
      rw [Encoding.prepareNode_union, hfind]
      simp only [Encoding.isNull_eq hview, htext, Bool.or_self, Bool.false_eq_true, if_false]
      exact hreproduced.again path

end union

/-- Whatever is prepared at a node of the schema and written is reproduced. -/
theorem reproduced (hs : Setting r schema top decls) (value : Value) :
    Reproduces r top.declarations schema decls value := by
  suffices hsize : ∀ n value, sizeOf value < n → Reproduces r top.declarations schema decls value
    from hsize _ value (Nat.lt_succ_self _)
  intro n
  induction n with
  | zero => exact fun value hvalue => absurd hvalue (Nat.not_lt_zero _)
  | succ n ih =>
    intro value hvalue enclosing path node l datum hwithin h
    have hbelow : ∀ w, sizeOf w < sizeOf value → Reproduces r top.declarations schema decls w :=
      fun w hw => ih w (Nat.lt_of_lt_of_le hw (Nat.le_of_lt_succ hvalue))
    by_cases hnode : ∃ members, node = .arr members
    · obtain ⟨members, rfl⟩ := hnode
      exact reproduced_union hs hwithin hbelow h
    · obtain ⟨echo, hreproduced⟩ :=
        reproduced_alone hs hwithin (fun members he => hnode ⟨members, he⟩) hbelow h
      exact ⟨echo, hreproduced.toReproduced⟩

end nodes

/-! ## Records -/

/-- The record of a document is decoded, and what it is decoded to is encoded as the same record. The
schema has no defaults and identifiers, and original names that differ in each record; the data of the
document show no instant outside the years 1 to 9999. -/
theorem encodeRecord_decodeRecord {options : Options} {schema : Json} {e : Encoder}
    (he : Encoder.ofSchema options schema = .ok e)
    (hschema : Reproducible options.altNamesKey schema) {doc : Value} {bytes : List UInt8}
    (hencode : e.encodeRecord doc = .ok bytes)
    (hheld : ∀ datum, e.prepare doc = .ok datum →
      datum.Everywhere fun v => v.instantHeld = true) :
    ∃ d v, Decoder.ofSchema options (some schema) = .ok d ∧ d.decodeRecord bytes = .ok v ∧
      e.encodeRecord v = .ok bytes := by
  obtain ⟨layout, hcheck, hlayout, hregular, rfl⟩ := Encoder.ofSchema_parts he
  have hd : Decoder.ofSchema options (some schema) =
      .ok ⟨some (schema, Schema.Registry.ofSchema schema, layout), options⟩ := by
    simp only [Decoder.ofSchema, hcheck, hlayout]
  obtain ⟨decls, hsound⟩ :=
    Schema.sound_of_layout (Schema.hereditary_typeIn schema) .whole hlayout hregular
  have hs : Setting ⟨schema, Schema.Registry.ofSchema schema, options,
      options.strictUnknownFields⟩ schema layout decls := ⟨rfl, hsound, hschema⟩
  obtain ⟨datum, hprepare, hwrite⟩ := Encoder.encodeRecord_ok hencode
  obtain ⟨echo, hreproduced⟩ := reproduced hs doc "" Pointer.root schema layout datum
    hs.sound.within ⟨hprepare, ⟨_, bytes, hwrite⟩, hheld datum hprepare⟩
  obtain ⟨least, hread⟩ := hreproduced.stable.read _ bytes hwrite
  have hholds : Binary.Holds layout bytes echo.stored := by
    have hread' := hread least (Nat.le_refl _) []
    rw [List.append_nil] at hread'
    exact Binary.holds_of_read (Binary.read_of_readDatum hread')
  have hagain : Binary.write layout echo.renewed = .ok bytes := by
    rw [Binary.write, Binary.writeDepth, ← hreproduced.renewed.size, hreproduced.stable.size,
      ← hreproduced.renewed.written, hreproduced.stable.written]
    exact hwrite
  have hprepared : Encoder.prepare ⟨schema, Schema.Registry.ofSchema schema, layout, options⟩
      echo.view = .ok echo.renewed := hreproduced.again Pointer.root
  refine ⟨_, echo.view, hd, Decoder.decodeRecord_holds hholds (hreproduced.shown Pointer.root), ?_⟩
  rw [Encoder.encodeRecord, hprepared]
  simp only [Encoder.writeDatum, hagain]

/-- A record of an instant one hour east of UTC with more than milliseconds, under a key that is no
name, a text that is absent and a number where a text is written. -/
theorem encodeRecord_decodeRecord_renamed :
    let millis : Json := .obj [("type", .str "long"), ("logicalType", .str "timestamp-millis")]
    let time : Json := .obj [("name", .str "t_1"), ("type", .arr [.str "null", millis]),
      ("altnames", .obj [("json", .str "t 1")])]
    let note : Json := .obj [("name", .str "note"), ("type", .arr [.str "string", .str "null"])]
    let number : Json := .obj [("name", .str "n"), ("type", .str "string")]
    let schema : Json := .obj [("type", .str "record"), ("name", .str "R"),
      ("fields", .arr [time, note, number])]
    let options := Options.standard "Document" "" (List.replicate 16 7)
    let instant : Timestamp := ⟨63000000000000123, by decide, some ⟨3600000000, by decide⟩⟩
    let entries : List (Key × Value) := [(.text "n", .int 5), (.text "t 1", .timestamp instant)]
    let doc := Value.struct entries
    let bytes := [2, 128, 166, 217, 163, 168, 50, 2, 2, 53]
    ∃ e, Encoder.ofSchema options schema = .ok e ∧ Reproducible options.altNamesKey schema ∧
      e.encodeRecord doc = .ok bytes ∧
      (∀ datum, e.prepare doc = .ok datum → datum.Everywhere fun v => v.instantHeld = true) ∧
      ∃ d v, Decoder.ofSchema options (some schema) = .ok d ∧ d.decodeRecord bytes = .ok v ∧
        e.encodeRecord v = .ok bytes := by
  intro millis time note number schema options instant entries doc bytes
  let layout : Layout := .record "R" [
    ("t_1", none, .union [.primitive .null none, .primitive .long (some .timestampMillis)]),
    ("note", none, .union [.primitive .string none, .primitive .null none]),
    ("n", none, .primitive .string none)]
  let nodes := [schema, .arr [.str "null", millis], .arr [.str "string", .str "null"], millis,
    .str "null", .str "string"]
  have hclosed : ∀ node ∈ nodes, Schema.innerTypes node ⊆ nodes := by decide +kernel
  have hunaltering : ∀ node ∈ nodes, Schema.Unaltering options.altNamesKey node := by
    intro node hnode
    simp only [nodes, List.mem_cons, List.not_mem_nil, or_false] at hnode
    obtain rfl | rfl | rfl | rfl | rfl | rfl := hnode <;> exact ⟨by decide, by decide, by decide⟩
  have hschema : Reproducible options.altNamesKey schema := fun node h =>
    hunaltering node (h.mem List.mem_cons_self hclosed)
  have hlayout : Layout.ofSchema schema = .ok layout := by decide +kernel
  have hcheck : Schema.check schema = .ok (Schema.Registry.ofSchema schema) := by cbv
  have he : Encoder.ofSchema options schema =
      .ok ⟨schema, Schema.Registry.ofSchema schema, layout, options⟩ := by
    rw [Encoder.ofSchema, hcheck, hlayout]
  let datum : Value := .struct [(.text "t_1", .timestamp instant), (.text "note", .null),
    (.text "n", .text "5")]
  have hprepare : Encoder.prepare ⟨schema, Schema.Registry.ofSchema schema, layout, options⟩ doc =
      .ok datum := by
    have hmillis (path : String) : prepareNode options (Schema.Registry.ofSchema schema) "" path millis
        (.timestamp instant) = .ok (.timestamp instant) := by
      rw [prepareNode_plain ⟨.inl rfl, rfl⟩]
      rfl
    have hstring (path : String) : prepareNode options (Schema.Registry.ofSchema schema) "" path
        (.str "string") (.int 5) = .ok (.text "5") := by
      rw [prepareNode_plain ⟨.inr ⟨_, _, rfl, rfl⟩, rfl⟩]
      rfl
    have hnullable (path : String) : prepareNode options (Schema.Registry.ofSchema schema) "" path
        (.arr [.str "null", millis]) (.timestamp instant) = .ok (.timestamp instant) := by
      rw [Encoding.prepareNode_union]
      exact hmillis path
    have hfields : prepareFields options (Schema.Registry.ofSchema schema) "" Pointer.root
        (Encoding.claimedNames options [time, note, number]) [time, note, number] entries =
          .ok [(.text "t_1", .timestamp instant), (.text "note", .null), (.text "n", .text "5")] := by
      have htime : Encoding.fieldDatum options (Schema.Registry.ofSchema schema) "" Pointer.root
          (Encoding.claimedNames options [time, note, number]) entries time =
            .ok (.timestamp instant) := hnullable _
      have hnumber : Encoding.fieldDatum options (Schema.Registry.ofSchema schema) "" Pointer.root
          (Encoding.claimedNames options [time, note, number]) entries number =
            .ok (.text "5") := hstring _
      rw [Encoding.prepareFields_cons, htime, Encoding.prepareFields_cons,
        Encoding.prepareFields_cons, hnumber, prepareFields]
      rfl
    rw [Encoder.prepare, prepareNode_record (r := ⟨schema, Schema.Registry.ofSchema schema, options,
      false⟩) ⟨.inl rfl, by decide +kernel⟩ rfl]
    simp only [doc, show Schema.fieldsOf schema = [time, note, number] from rfl, hfields]
    rfl
  have hwrite : Binary.write layout datum = .ok bytes := by cbv
  have hencode : Encoder.encodeRecord ⟨schema, Schema.Registry.ofSchema schema, layout, options⟩
      doc = .ok bytes := by
    rw [Encoder.encodeRecord, hprepare]
    simp only [Encoder.writeDatum, hwrite]
  have hheld : ∀ datum,
      Encoder.prepare ⟨schema, Schema.Registry.ofSchema schema, layout, options⟩ doc = .ok datum →
        datum.Everywhere fun v => v.instantHeld = true := by
    intro datum h
    obtain rfl := Except.ok.inj (hprepare.symm.trans h)
    decide
  exact ⟨_, he, hschema, hencode, hheld, encodeRecord_decodeRecord he hschema hencode hheld⟩

end AvroDocument
