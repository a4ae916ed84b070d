import AvroDocument.Proofs.Conformance
import AvroDocument.Proofs.DocumentText
import AvroDocument.Proofs.ProjectedResults
import AvroDocument.Proofs.TypedData

/-!
# AvroDocument.Proofs.DefaultValues

Fields that a document lacks, and fields that a payload lacks.

An encoder writes the default of a field like any other datum, and a decoder reads it back as a value
of the type of the field; where the payload has no such field, a decoder hands out the tree of the
default as it is.

* `Schema.Verbatim`: a tree that comes back as it was written at a node.
* `verbatim_stored`: what a verbatim tree is written as is read back as its own value.
* `default_alike`: a verbatim default is the value of its field both ways.
-/

namespace AvroDocument

open Schema (TypeIn Within Sound Form Plain Piece StandsFor)
open Binary (Stable)

/-! ## Trees that are read back as they are -/

namespace Schema

/-- A tree whose value is a datum of a primitive node and comes back as it was written. Single
precision keeps it, and an identifier has the one spelling in which identifiers come back. -/
structure VerbatimScalar (node : Json) (type : Primitive) (tree : Json) : Prop where
  datum : ∃ kind, DatumKind.ofType? node type = some kind ∧ kind.holds (.ofJson tree) = true
  noDecimal : ∀ d, tree ≠ .decimal d
  single : ∀ x, type = .float → tree = .float x → Binary64.ofBinary32 x.toBinary32 = x
  canonical : ∀ s, logicalName? node = some "uuid" → tree = .str s →
    Binary.identifier? s = some s

/-- A tree that comes back as it was written at a node. A record has the fields of its type in their
order, and these have no other original names. -/
inductive Verbatim (schema : Json) (purpose : String) : String → Json → Json → Prop
  | scalar {enclosing inner : String} {node plain tree : Json} {type : Primitive}
      (hresolve : (Registry.ofSchema schema).resolve node enclosing = .ok (plain, inner))
      (hplain : Plain inner plain) (hkind : Primitive.ofName? (typeName plain) = some type)
      (h : VerbatimScalar plain type tree) : Verbatim schema purpose enclosing node tree
  | array {enclosing inner : String} {node plain : Json} {trees : List Json}
      (hresolve : (Registry.ofSchema schema).resolve node enclosing = .ok (plain, inner))
      (hplain : Plain inner plain) (hkind : typeName plain = "array")
      (h : ∀ tree ∈ trees, Verbatim schema purpose inner (itemsOf plain) tree) :
      Verbatim schema purpose enclosing node (.arr trees)
  | absent {enclosing : String} {members : List Json} (h : isNullable (.arr members) = true) :
      Verbatim schema purpose enclosing (.arr members) .null
  | present {enclosing : String} {members : List Json} {member tree : Json}
      (hfind : members.find? (fun m => !isNullMember m) = some member) (htree : tree ≠ .null)
      (h : Verbatim schema purpose enclosing member tree) :
      Verbatim schema purpose enclosing (.arr members) tree
  | record {enclosing inner : String} {node plain : Json} {trees : Json → Json}
      (hresolve : (Registry.ofSchema schema).resolve node enclosing = .ok (plain, inner))
      (hplain : Plain inner plain) (hkind : typeName plain = "record")
      (hnames : ∀ f ∈ fieldsOf plain, altName f purpose = nameOf f)
      (h : ∀ f ∈ fieldsOf plain, Verbatim schema purpose inner (typeOf f) (trees f)) :
      Verbatim schema purpose enclosing node
        (.obj ((fieldsOf plain).map fun f => (nameOf f, trees f)))

end Schema

/-! ### Scalars -/

section scalar

variable {node tree : Json} {type : Primitive} {meaning : Option Meaning} {types : Declarations}

/-- A datum that is read back for the value of a scalar, and has that value again. -/
structure ReadScalar (types : Declarations) (node : Json) (type : Primitive)
    (meaning : Option Meaning) (tree : Json) (stored : Value) : Prop where
  stable : Stable types (.primitive type meaning) (.ofJson tree) stored
  shown : ∀ options path, Decoding.scalarValue options path node stored = .ok (.ofJson tree)
  present : stored = .null → tree = .null

theorem ofJson_eq_null (h : Value.ofJson tree = .null) : tree = .null := by
  cases tree with
  | null => rfl
  | _ => cases h

theorem coerce_datum (hkind : Primitive.ofName? (Schema.typeName node) = some type)
    {v : Value} (hv : v ≠ .null)
    (h : ∃ kind, DatumKind.ofType? node type = some kind ∧ kind.holds v = true) (options : Options)
    (path : String) : Decoding.scalarValue options path node v = .ok v := by
  obtain ⟨kind, htype, hholds⟩ := h
  refine (scalarValue_ok hv).mpr (DatumKind.coerce_of_holds ?_ hholds options path)
  rw [DatumKind.ofNode?, hkind]
  exact htype

/-- Most scalars are stored as they are. -/
theorem ReadScalar.itself (hkind : Primitive.ofName? (Schema.typeName node) = some type)
    (hdatum : ∃ kind, DatumKind.ofType? node type = some kind ∧ kind.holds (.ofJson tree) = true)
    (hstable : Stable types (.primitive type meaning) (.ofJson tree) (.ofJson tree))
    (hnull : Value.ofJson tree ≠ .null) :
    ReadScalar types node type meaning tree (.ofJson tree) :=
  ⟨hstable, coerce_datum hkind hnull hdatum, ofJson_eq_null⟩

/-- An integer node without the data of an annotation has no meaning. -/
theorem Layout.meaning?_integer {ms : List (String × Json)} {integer : DatumKind}
    (hinteger : integer = .int32 ∧ type = .int ∨ integer = .int64 ∧ type = .long)
    (h : DatumKind.ofLogical integer ((Schema.logicalName? (.obj ms)).getD "") = integer) :
    Layout.meaning? type ms = none := by
  obtain ⟨rfl, rfl⟩ | ⟨rfl, rfl⟩ := hinteger <;>
  · unfold Layout.meaning?
    split
    all_goals first
      | contradiction
      | rfl
      | rename_i hlogical
        rw [hlogical] at h
        exact absurd h (by decide)

theorem Layout.meaning?_string (ms : List (String × Json)) :
    Layout.meaning? .string ms = none ∨
      Layout.meaning? .string ms = some .uuid ∧ Schema.logicalName? (.obj ms) = some "uuid" := by
  unfold Layout.meaning?
  split
  all_goals first
    | contradiction
    | exact .inl rfl
    | exact .inr ⟨rfl, ‹_›⟩

/-- A tree that is a datum of an integer node is an integer, and the node has no annotation. -/
theorem integer_of_holds {integer : DatumKind} {logical : String}
    (hinteger : integer = .int32 ∨ integer = .int64)
    (h : (DatumKind.ofLogical integer logical).holds (.ofJson tree) = true) :
    ∃ n, tree = .int n ∧ fitsInt64 n = true ∧ DatumKind.ofLogical integer logical = integer := by
  unfold DatumKind.ofLogical at h ⊢
  split_ifs at h ⊢
  · cases tree <;> cases h
  · cases tree <;> cases h
  · cases tree <;> cases h
  · cases tree <;> cases h
  · cases tree with
    | int n =>
      refine ⟨n, rfl, ?_, rfl⟩
      obtain rfl | rfl := hinteger
      · exact fitsInt64_of_fitsInt32 h
      · exact h
    | _ => obtain rfl | rfl := hinteger <;> cases h

theorem stable_int (htype : type = .int ∨ type = .long) {n : Int} (h : fitsInt64 n = true) :
    Stable types (.primitive type none) (.int n) (.int n) := by
  have hwrite : Binary.writeDatum types 0 (.primitive type none) (.int n) =
      .ok (Varint.writeInt n) := by
    rw [Binary.writeDatum]
    obtain rfl | rfl := htype <;> exact if_pos h
  exact stable_integer htype rfl rfl rfl hwrite rfl

/-- An integer is stored as it is, since its node has no annotation. -/
theorem stored_integer {integer : DatumKind}
    (hinteger : integer = .int32 ∧ type = .int ∨ integer = .int64 ∧ type = .long)
    (hkind : Primitive.ofName? (Schema.typeName node) = some type)
    (hmeaning : (∃ name, node = .str name ∧ meaning = none) ∨
      ∃ ms, node = .obj ms ∧ meaning = Layout.meaning? type ms)
    (htype : DatumKind.ofType? node type =
      some (.ofLogical integer ((Schema.logicalName? node).getD "")))
    (h : (DatumKind.ofLogical integer ((Schema.logicalName? node).getD "")).holds
      (.ofJson tree) = true) :
    ReadScalar types node type meaning tree (.ofJson tree) := by
  obtain ⟨n, rfl, hfits, hplain⟩ := integer_of_holds (hinteger.imp And.left And.left) h
  obtain rfl : meaning = none := by
    obtain ⟨_, -, rfl⟩ | ⟨ms, rfl, rfl⟩ := hmeaning
    · rfl
    · exact Layout.meaning?_integer hinteger hplain
  exact .itself hkind ⟨_, htype, h⟩ (stable_int (hinteger.imp And.right And.right) hfits)
    Value.noConfusion

/-- A text at a string node comes back as it was written, if it is canonical where the node has
identifiers. -/
theorem stored_text (hkind : Schema.typeName node = "string")
    (hmeaning : meaning = none ∨ meaning = some .uuid) {s : String}
    (h : meaning = some .uuid → Binary.identifier? s = some s) :
    ∃ stored, ReadScalar types node .string meaning (.str s) stored := by
  have hread (rest : List UInt8) :
      Binary.readPlain .string (Binary.writeText s ++ rest) = .ok (.text s, rest) := by
    rw [Binary.readPlain, Binary.readText_writeText]
    rfl
  obtain rfl | rfl := hmeaning
  · exact ⟨.text s, Binary.stable_primitive rfl rfl rfl rfl rfl hread rfl rfl,
      fun _ _ => (scalarValue_ok (by simp)).mpr (coerce_string hkind s), Value.noConfusion⟩
  · refine ⟨.uuid s, Binary.stable_primitive rfl rfl rfl rfl rfl hread ?_ rfl,
      fun _ _ => (scalarValue_ok (by simp)).mpr (coerce_string hkind s), Value.noConfusion⟩
    rw [Binary.wrap, h rfl]
    rfl

/-- What a scalar is written as is read back as the value of the tree. -/
theorem stored_scalar (hkind : Primitive.ofName? (Schema.typeName node) = some type)
    (hmeaning : (∃ name, node = .str name ∧ meaning = none) ∨
      ∃ ms, node = .obj ms ∧ meaning = Layout.meaning? type ms)
    (h : Schema.VerbatimScalar node type tree) :
    ∃ stored, ReadScalar types node type meaning tree stored := by
  obtain ⟨kind, htype, hholds⟩ := h.datum
  have hnone (h : ∀ ms, node = .obj ms → Layout.meaning? type ms = none) : meaning = none := by
    obtain ⟨_, -, rfl⟩ | ⟨ms, rfl, rfl⟩ := hmeaning
    · rfl
    · exact h ms rfl
  cases type with
  | null =>
    cases htype
    cases tree with
    | null =>
      obtain rfl := hnone fun ms _ => Schema.meaning?_null ms
      exact ⟨.null, Binary.stable_null, fun _ _ => if_pos (Primitive.eq_name hkind), fun _ => rfl⟩
    | _ => cases hholds
  | boolean =>
    cases htype
    cases tree with
    | bool b =>
      obtain rfl := hnone fun _ _ => rfl
      refine ⟨_, .itself hkind h.datum
        (Binary.stable_primitive rfl rfl rfl rfl rfl (fun rest => ?_) rfl rfl) Value.noConfusion⟩
      cases b <;> rfl
    | _ => cases hholds
  | int =>
    obtain rfl := Option.some.inj htype
    exact ⟨_, stored_integer (.inl ⟨rfl, rfl⟩) hkind hmeaning rfl hholds⟩
  | long =>
    obtain rfl := Option.some.inj htype
    exact ⟨_, stored_integer (.inr ⟨rfl, rfl⟩) hkind hmeaning rfl hholds⟩
  | float =>
    cases htype
    cases tree with
    | float x =>
      obtain rfl := hnone fun _ _ => rfl
      refine ⟨_, .itself hkind h.datum
        (Binary.stable_primitive rfl rfl rfl rfl rfl (fun rest => ?_) rfl rfl) Value.noConfusion⟩
      rw [Binary.readPlain_float, h.single x rfl rfl]
      rfl
    | _ => cases hholds
  | double =>
    cases htype
    cases tree with
    | float x =>
      obtain rfl := hnone fun _ _ => rfl
      exact ⟨_, .itself hkind h.datum
        (Binary.stable_primitive rfl rfl rfl rfl rfl (Binary.readPlain_double x) rfl rfl)
        Value.noConfusion⟩
    | _ => cases hholds
  | bytes =>
    -- No tree stands for bytes, and none but an exact number for a decimal.
    rw [DatumKind.ofType?] at htype
    split at htype
    · split at htype
      · split at htype <;> cases htype
        cases tree with
        | decimal d => exact absurd rfl (h.noDecimal d)
        | _ => cases hholds
      · cases htype
    · cases htype
      cases tree <;> cases hholds
  | string =>
    cases htype
    cases tree with
    | str s =>
      have huuid : meaning = none ∨ meaning = some .uuid ∧ Schema.logicalName? node = some "uuid" := by
        obtain ⟨_, -, rfl⟩ | ⟨ms, rfl, rfl⟩ := hmeaning
        · exact .inl rfl
        · exact Layout.meaning?_string ms
      refine stored_text (Primitive.eq_name hkind) (huuid.imp_right And.left) fun hmeaning => ?_
      obtain rfl | ⟨-, hlogical⟩ := huuid
      · cases hmeaning
      · exact h.canonical s hlogical rfl
    | _ => cases hholds

end scalar

/-! ### Lists and records -/

/-- A datum that is read back for the value of a tree, and has that value again. -/
structure ReadVerbatim (r : Reconciler) (types : Declarations) (enclosing : String) (node : Json)
    (l : Layout) (tree : Json) (stored : Value) : Prop where
  stable : Stable types l (.ofJson tree) stored
  shown : ∀ path, r.valueNode enclosing path node stored = .ok (.ofJson tree)
  present : stored = .null → tree = .null

section tree

variable {r : Reconciler} {schema node plain tree : Json} {decls : List (String × Json)}
  {top l : Layout} {enclosing inner : String}

/-- A name is read as what it stands for. -/
theorem stored_resolved (hs : Sound (TypeIn schema) schema top decls)
    (hregistry : r.registry = Schema.Registry.ofSchema schema)
    (hwithin : Within (TypeIn schema) schema decls enclosing node l)
    (hresolve : (Schema.Registry.ofSchema schema).resolve node enclosing = .ok (plain, inner))
    (hplain : Plain inner plain)
    (h : ∀ l', Form (TypeIn schema) schema decls inner plain l' →
      ∃ stored, ReadVerbatim r top.declarations inner plain l' tree stored) :
    ∃ stored, ReadVerbatim r top.declarations enclosing node l tree stored := by
  have hnode : ∀ members, node ≠ .arr members := by
    rintro members rfl
    cases hresolve
    exact hplain.not_union _ rfl
  obtain ⟨plain', inner', l', hresolve', hinside, -, hstands, -⟩ := hwithin.resolve hs hnode
  cases hresolve.symm.trans hresolve'
  obtain ⟨stored, hstored⟩ := h l' (hinside.form hs.hereditary hplain)
  refine ⟨stored, ?_, fun path => ?_, hstored.present⟩
  · obtain rfl | ⟨name, rfl, hlookup⟩ := hstands
    · exact hstored.stable
    · exact Binary.stable_reference hstored.stable hlookup
  · rw [r.valueNode_resolved (hregistry ▸ hresolve) hplain]
    exact hstored.shown path

/-- What a verbatim tree is written as is read back as its own value. -/
theorem verbatim_stored (hs : Sound (TypeIn schema) schema top decls)
    (hregistry : r.registry = Schema.Registry.ofSchema schema)
    (h : Schema.Verbatim schema r.options.altNamesKey enclosing node tree)
    (hwithin : Within (TypeIn schema) schema decls enclosing node l) :
    ∃ stored, ReadVerbatim r top.declarations enclosing node l tree stored := by
  induction h generalizing l with
  | scalar hresolve hplain hkind h =>
    refine stored_resolved hs hregistry hwithin hresolve hplain fun l' hform => ?_
    cases hform with
    | primitive hkind' hmeaning =>
      cases hkind.symm.trans hkind'
      obtain ⟨stored, hstored⟩ := stored_scalar hkind hmeaning h
      refine ⟨stored, hstored.stable, fun path => ?_, hstored.present⟩
      rw [valueNode_primitive hplain hkind]
      exact hstored.shown _ _
    | array hkind' => exact absurd hkind' (Schema.not_kind hkind rfl)
    | record hkind' => exact absurd hkind' (Schema.not_kind hkind rfl)
  | @array _ _ _ _ trees hresolve hplain hkind _ ih =>
    refine stored_resolved hs hregistry hwithin hresolve hplain fun l' hform => ?_
    cases hform with
    | primitive hkind' => exact absurd hkind (Schema.not_kind hkind' rfl)
    | record hkind' => exact absurd (hkind.symm.trans hkind') (by decide)
    | array _ hitems =>
      obtain ⟨stored, hstored⟩ := exists_forall_mem fun tree htree => ih tree htree hitems
      have hvalue : Value.ofJson (.arr trees) = .list (trees.map .ofJson) := by
        rw [Value.ofJson, Value.ofItems_eq]
      refine ⟨.list (trees.map stored), ?_, fun path => ?_, Value.noConfusion⟩
      · rw [hvalue]
        exact Binary.stable_array fun tree htree => (hstored tree htree).stable
      · rw [hvalue, valueNode_array hplain hkind,
          Inference.value_items fun tree htree path => (hstored tree htree).shown path]
  | absent h =>
    refine ⟨.null, stable_nullable hs hwithin, fun path => ?_, fun _ => rfl⟩
    rw [Reconciler.valueNode_union]
    exact (if_pos rfl).trans (if_pos h)
  | present hfind htree _ ih =>
    obtain ⟨pieces, rfl, rfl, hone, hpieces⟩ := hwithin.members hs.hereditary
    obtain ⟨p, hp, rfl⟩ := List.mem_map.mp (List.mem_of_find?_eq_some hfind)
    obtain ⟨stored, hstored⟩ := ih (hpieces p hp).1
    have hpresent : stored ≠ .null := fun h => htree (hstored.present h)
    refine ⟨stored, ?_, fun path => ?_, hstored.present⟩
    · refine stable_present hone (fun q hq hnull => ?_) hp (by simpa using List.find?_some hfind)
        (fun h => htree (ofJson_eq_null h)) hpresent hstored.stable
      obtain ⟨hinside, hnullType, -⟩ := hpieces q hq
      exact hinside.layout_null (hnullType.trans hnull)
    · rw [Reconciler.valueNode_union, Encoding.isNull_eq hpresent, hfind]
      exact hstored.shown path
  | @record _ _ _ plain trees hresolve hplain hkind hnames _ ih =>
    refine stored_resolved hs hregistry hwithin hresolve hplain fun l' hform => ?_
    cases hform with
    | primitive hkind' => exact absurd hkind (Schema.not_kind hkind' rfl)
    | array hkind' => exact absurd (hkind.symm.trans hkind') (by decide)
    | @record pieces _ hfields _ hdistinct hpieces =>
      have hfield : ∀ p ∈ pieces, p.node ∈ Schema.fieldsOf plain := fun p hp =>
        hfields ▸ List.mem_map_of_mem hp
      obtain ⟨stored, hstored⟩ := exists_forall_mem fun p (hp : p ∈ pieces) =>
        ih p.node (hfield p hp) (hpieces p hp)
      have hvalue : Value.ofJson
          (.obj ((Schema.fieldsOf plain).map fun f => (Schema.nameOf f, trees f))) =
            .struct (Binary.entriesFor (fun p => Schema.nameOf p.node)
              (fun p => .ofJson (trees p.node)) pieces) := by
        rw [Value.ofJson, Value.ofMembers_eq, hfields, List.map_map, List.map_map]
        rfl
      have hkeys : pieces.map (fun p => Schema.altName p.node r.options.altNamesKey) =
          pieces.map fun p => Schema.nameOf p.node :=
        List.map_congr_left fun p hp => hnames p.node (hfield p hp)
      refine ⟨.struct (Binary.entriesFor (fun p => Schema.nameOf p.node) stored pieces), ?_,
        fun path => ?_, Value.noConfusion⟩
      · rw [hvalue]
        exact Binary.stable_record _ hdistinct fun p hp => (hstored p hp).stable
      · rw [hvalue, valueNode_fields hplain hkind hfields (hkeys ▸ hdistinct)
          (fun p hp => Binary.member?_entriesFor hdistinct hp)
          (fun e he => by obtain ⟨p, hp, rfl⟩ := List.mem_map.mp he; exact ⟨p, hp, rfl⟩)
          fun p hp path => (hstored p hp).shown path]
        congr 2
        exact List.map_congr_left fun p hp => by simp only [hnames p.node (hfield p hp)]

end tree

/-! ## Defaults of fields -/

section default

variable {options options' : Options} {ms : List (String × Json)} {f default : Json} {e : Encoder}
  {d : Decoder}

variable {schema : Json} {decls : List (String × Json)} {top : Layout} {inner path : String}
  {pieces : List Piece} {p : Piece}

/-- A field that a document lacks is prepared to its default. -/
theorem fieldDatum_default {registry : Schema.Registry} {claimed : List String}
    {entries : List (Key × Value)} (hdefault : f.get? "default" = some default)
    (hrequired : Schema.isNullable (Schema.typeOf f) = false)
    (habsent : Encoding.sourceKey? options claimed entries f = none) :
    Encoding.fieldDatum options registry inner path claimed entries f = .ok (.ofJson default) := by
  rw [Encoding.fieldDatum, habsent]
  simp only [Encoding.absentValue, hrequired, hdefault, Bool.false_eq_true, if_false]

/-- What is read for a field that was written with a verbatim default has the value of the
default. -/
theorem value_of_default {name : String} {r : Reconciler}
    (hs : Sound (TypeIn schema) schema top decls)
    (hregistry : r.registry = Schema.Registry.ofSchema schema)
    (hwithin : Within (TypeIn schema) schema decls inner (Schema.typeOf p.node) p.layout)
    (hverbatim : Schema.Verbatim schema r.options.altNamesKey inner (Schema.typeOf p.node) default)
    (hnames : (pieces.map fun p => Schema.nameOf p.node).Nodup) (hp : p ∈ pieces)
    {datumOf : Piece → Value} (hdatum : datumOf p = .ofJson default) {fuel fuel' : Nat}
    {bytes rest behind : List UInt8} {stored : Value}
    (hwrite : Binary.writeDatum top.declarations fuel (.record name (pieces.map Piece.field))
      (.struct (Binary.entriesFor (fun p => Schema.nameOf p.node) datumOf pieces)) = .ok bytes)
    (hread : Binary.readDatum top.declarations fuel' (.record name (pieces.map Piece.field))
      (bytes ++ rest) = .ok (stored, behind)) :
    ∃ storedOf : Piece → Value,
      stored = .struct (Binary.entriesFor (fun p => Schema.nameOf p.node) storedOf pieces) ∧
        ∀ path, r.valueNode inner path (Schema.typeOf p.node) (storedOf p) =
          .ok (.ofJson default) := by
  obtain ⟨storedOf, rfl, hall⟩ := Binary.readRecord_parts (by rwa [List.map_map]) hwrite hread
  obtain ⟨es, part, rest', hes, hpart, hfield⟩ := hall p.field (List.mem_map_of_mem hp)
  cases hes
  have hmember : Value.member? (Schema.nameOf p.node)
      (Binary.entriesFor (fun p => Schema.nameOf p.node) datumOf pieces) = some (.ofJson default) :=
    hdatum ▸ Binary.member?_entriesFor hnames hp
  rw [Binary.fieldValue, show p.field.1 = Schema.nameOf p.node from rfl, hmember] at hpart
  obtain ⟨w, hw⟩ := verbatim_stored hs hregistry hverbatim hwithin
  refine ⟨fun p => storedOf p.field, by rw [List.map_map]; rfl, fun path => ?_⟩
  simp only
  rw [hw.stable.eq_read hpart hfield]
  exact hw.shown path

/-- A verbatim default is the value of its field whether the encoder writes it for a document that
lacks the field or the payload lacks the field. -/
theorem default_alike (he : Encoder.ofSchema options (.obj ms) = .ok e)
    (hd : Decoder.ofSchema options' (some (.obj ms)) = .ok d)
    (hkind : Schema.typeName (.obj ms) = "record")
    (hkeys : ((Schema.fieldsOf (.obj ms)).map
      (Schema.altName · options'.altNamesKey)).Nodup)
    (hf : f ∈ Schema.fieldsOf (.obj ms)) (hdefault : f.get? "default" = some default)
    (hrequired : Schema.isNullable (Schema.typeOf f) = false)
    (hverbatim : Schema.Verbatim (.obj ms) options'.altNamesKey (Schema.innerOf (.obj ms) "")
      (Schema.typeOf f) default) :
    let key := Schema.altName f options'.altNamesKey
    let claimed := Encoding.claimedNames options (Schema.fieldsOf (.obj ms))
    (∀ entries bytes v, Encoding.sourceKey? options claimed entries f = none →
      e.encodeRecord (.struct entries) = .ok bytes → d.decodeRecord bytes = .ok v →
      ∃ values, v = .struct values ∧ Value.member? key values = some (.ofJson default)) ∧
    ∀ header entries v, Decoding.sourceName? entries f = none →
      (d.reconcilerFor header).toValue (.struct entries) = .ok v →
      ∃ values, v = .struct values ∧ Value.member? key values = some (.ofJson default) := by
  intro key claimed
  obtain ⟨layout, -, hlayout, hregular, rfl⟩ := Encoder.ofSchema_parts he
  obtain ⟨layout', -, hlayout', -, rfl⟩ := Decoder.ofSchema_parts hd
  obtain rfl := Except.ok.inj (hlayout.symm.trans hlayout')
  obtain ⟨decls, hs⟩ := Schema.sound_of_layout (Schema.hereditary_typeIn (.obj ms)) .whole hlayout
    hregular
  have halone : Schema.Standalone (.obj ms) := .inl rfl
  have hplain := halone.plain ""
  let reader : Reconciler := ⟨.obj ms, Schema.Registry.ofSchema (.obj ms), options',
    options'.strictUnknownFields⟩
  -- Both ways the value is a record with the values of the fields.
  have hrecord {entries : List (Key × Value)} {v : Value}
      (hvalue : reader.toValue (.struct entries) = .ok v)
      (hfield : ∀ path, reader.fieldValue (Schema.innerOf (.obj ms) "") path entries f =
        .ok (.ofJson default)) :
      ∃ values, v = .struct values ∧ Value.member? key values = some (.ofJson default) := by
    rw [Reconciler.toValue, halone.valueNode_eq] at hvalue
    obtain ⟨view, rfl, hview⟩ := Schema.valueNode_record_ok hplain hkind hkeys hvalue
    have hsame := hview f hf
    rw [hfield] at hsame
    refine ⟨_, rfl, ?_⟩
    rw [Except.ok.inj hsame]
    exact Binary.member?_entriesFor hkeys hf
  refine ⟨fun entries bytes v habsent hencode hdecode => ?_,
    fun header entries v habsent hvalue => hrecord hvalue fun path => ?_⟩
  · obtain ⟨datum, hprepare, hwrite⟩ := Encoder.encodeRecord_ok hencode
    obtain ⟨stored, hread, hvalue⟩ := Decoder.decodeRecord_ok hdecode
    let writer : Reconciler := ⟨.obj ms, Schema.Registry.ofSchema (.obj ms), options, false⟩
    have hplainPrepare : Encoding.prepareNode writer.options writer.registry
        (Schema.innerOf (.obj ms) "") Pointer.root (.obj ms) (.struct entries) = .ok datum :=
      (prepareNode_standalone halone _ _ _).symm.trans hprepare
    obtain ⟨es, data, hes, rfl, hdata⟩ := prepareNode_record_ok hplain hkind hplainPrepare
    cases hes
    obtain ⟨name, pieces, rfl, hfields, hnames, hpieces⟩ :=
      hs.within.fields_standalone halone hkind
    obtain ⟨p, hp, rfl⟩ : ∃ p ∈ pieces, p.node = f := List.mem_map.mp (hfields ▸ hf)
    rw [hfields] at hdata
    obtain ⟨datumOf, rfl, hdatum⟩ := prepareFields_ok hdata
    have hown : datumOf p = .ofJson default :=
      Except.ok.inj ((hdatum p hp).symm.trans (fieldDatum_default hdefault hrequired
        (hfields ▸ habsent)))
    have hreadBack : Binary.readDatum _ _ (.record name (pieces.map Piece.field)) (bytes ++ []) =
        .ok (stored, []) := (List.append_nil bytes).symm ▸ hread
    obtain ⟨storedOf, rfl, hshown⟩ := value_of_default (r := reader) hs rfl (hpieces p hp) hverbatim
      hnames hp hown hwrite hreadBack
    refine hrecord hvalue fun path => ?_
    rw [Schema.fieldValue_kept hnames hp rfl]
    exact hshown _
  · rw [Reconciler.fieldValue, habsent]
    simp only [Decoding.absentValue, hrequired, hdefault, Bool.false_eq_true, if_false]

/-- A flag that is set by default is set both ways. -/
theorem default_alike_flag :
    let field : Json :=
      .obj [("name", .str "a"), ("type", .str "boolean"), ("default", .bool true)]
    let schema : Json :=
      .obj [("type", .str "record"), ("name", .str "R"), ("fields", .arr [field])]
    let options := Options.standard "R" "" (List.replicate 16 7)
    ∃ e d, Encoder.ofSchema options schema = .ok e ∧
      Decoder.ofSchema options (some schema) = .ok d ∧
      e.encodeRecord (.struct []) = .ok [1] ∧
      (∃ v, d.decodeRecord [1] = .ok v ∧
        ∃ values, v = .struct values ∧ Value.member? "a" values = some (.bool true)) ∧
      ∀ header, ∃ v, (d.reconcilerFor header).toValue (.struct []) = .ok v ∧
        ∃ values, v = .struct values ∧ Value.member? "a" values = some (.bool true) := by
  intro field schema options
  let layout : Layout := .record "R" [("a", some (.bool true), .primitive .boolean none)]
  let complete : Value := .struct [(.text "a", .bool true)]
  have hlayout : Layout.ofSchema schema = .ok layout := by decide +kernel
  have hcheck : Schema.check schema = .ok (Schema.Registry.ofSchema schema) := by decide +kernel
  have he : Encoder.ofSchema options schema =
      .ok ⟨schema, Schema.Registry.ofSchema schema, layout, options⟩ :=
    Encoder.ofSchema_eq _ hcheck hlayout
  have hd : Decoder.ofSchema options (some schema) =
      .ok ⟨some (schema, Schema.Registry.ofSchema schema, layout), options⟩ :=
    Decoder.ofSchema_eq _ hcheck hlayout
  have hverbatim : Schema.Verbatim schema options.altNamesKey (Schema.innerOf schema "")
      (.str "boolean") (.bool true) :=
    .scalar rfl ⟨.inr ⟨_, .boolean, rfl, rfl⟩, rfl⟩ rfl
      ⟨⟨.boolean, rfl, rfl⟩, nofun, nofun, nofun⟩
  obtain ⟨hwritten, hunwritten⟩ :=
    default_alike he hd rfl (by decide) List.mem_cons_self rfl rfl hverbatim
  have hencode : Encoder.encodeRecord ⟨schema, Schema.Registry.ofSchema schema, layout, options⟩
      (.struct []) = .ok [1] := by cbv
  have hdecode : Decoder.decodeRecord
      ⟨some (schema, Schema.Registry.ofSchema schema, layout), options⟩ [1] = .ok complete := by cbv
  refine ⟨_, _, he, hd, hencode, ⟨complete, hdecode, hwritten [] [1] complete rfl hencode hdecode⟩,
    fun header => ?_⟩
  have hread : (Decoder.reconcilerFor
      ⟨some (schema, Schema.Registry.ofSchema schema, layout), options⟩ header).toValue (.struct []) =
        .ok complete := by cbv
  exact ⟨complete, hread, hunwritten header [] complete rfl hread⟩

/-- A record by default has its original names where it was written, and the names of the schema where
the payload has no such field. -/
theorem default_differs_renamed :
    let flag : Json := .obj [("name", .str "is_set"), ("type", .str "boolean"),
      ("altnames", .obj [("json", .str "is-set")])]
    let type : Json :=
      .obj [("type", .str "record"), ("name", .str "B"), ("fields", .arr [flag])]
    let field : Json :=
      .obj [("name", .str "b"), ("type", type), ("default", .obj [("is_set", .bool true)])]
    let schema : Json :=
      .obj [("type", .str "record"), ("name", .str "R"), ("fields", .arr [field])]
    let options := Options.standard "R" "" (List.replicate 16 7)
    ∃ e d, Encoder.ofSchema options schema = .ok e ∧
      Decoder.ofSchema options (some schema) = .ok d ∧
      e.encodeRecord (.struct []) = .ok [1] ∧
      d.decodeRecord [1] =
        .ok (.struct [(.text "b", .struct [(.text "is-set", .bool true)])]) ∧
      ∀ header, (d.reconcilerFor header).toValue (.struct []) =
        .ok (.struct [(.text "b", .struct [(.text "is_set", .bool true)])]) := by
  intro flag type field schema options
  let layout : Layout := .record "R" [("b", some (.obj [("is_set", .bool true)]),
    .record "B" [("is_set", none, .primitive .boolean none)])]
  have hlayout : Layout.ofSchema schema = .ok layout := by decide +kernel
  have hcheck : Schema.check schema = .ok (Schema.Registry.ofSchema schema) := by decide +kernel
  refine ⟨_, _, Encoder.ofSchema_eq _ hcheck hlayout, Decoder.ofSchema_eq _ hcheck hlayout, ?_, ?_,
    fun header => ?_⟩
  · cbv
  · cbv
  · cbv

end default

end AvroDocument
