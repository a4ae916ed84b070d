import AvroDocument.Proofs.DecimalFields
import AvroDocument.Proofs.Storage

/-!
# AvroDocument.Proofs.LocalTimes

Local times that are written as instants and read as local times again.

* `Calendar.Zone.ofId_fixed`: a fixed offset is a whole number of minutes.
* `TimeUnit`: the units of timestamps, and what is left of a local time in whole units.
* `TimeUnit.coerce_instant`, `TimeUnit.writes_instant`, `TimeUnit.reads_instant`,
  `TimeUnit.coerce_local`: a local time on its way out of a document, into bytes, out of these, and into
  a document again.
* `decode_encode_localTimes`: the whole way, for the records of a container.
-/

namespace AvroDocument

open Binary (Writes Reads timestampMicros)
open Calendar (Zone epochMicros microSpan secondMicros)

/-! ## Zones -/

theorem Offset.micros_ofMicros? {n : Int} {o : Offset} (h : Offset.ofMicros? n = some o) :
    o.micros = n := by
  unfold Offset.ofMicros? at h
  split at h
  · cases h
    rfl
  · cases h

/-- An identifier of a fixed offset is no name of a region, and the offset is a whole number of
minutes. -/
theorem Calendar.Zone.ofId_fixed {names : Zone.Names} {id : String} {o : Offset}
    (h : Zone.ofId names id = .ok (.fixed o)) :
    (∀ names', Zone.ofId names' id = .ok (.fixed o)) ∧
      ∃ minutes : Int, o.micros = minutes * (60 * secondMicros) := by
  unfold Zone.ofId at h ⊢
  split at h
  · rename_i hutc
    cases h
    exact ⟨fun _ => if_pos hutc, 0, rfl⟩
  rename_i hutc
  simp only [if_neg hutc]
  split at h
  · rename_i negative minutes hread
    simp only at h
    split at h
    · rename_i offset hoffset
      cases h
      refine ⟨fun _ => rfl, ?_⟩
      rw [Offset.micros_ofMicros? hoffset]
      cases negative with
      | false => exact ⟨minutes, by simp [mul_assoc]⟩
      | true => exact ⟨-minutes, by simp [mul_assoc]⟩
    · cases h
  · split at h <;> cases h

/-! ## Instants of local times -/

namespace Timestamp

/-- A timestamp without an offset, whose instant at an offset lies in the years 1 to 9999. -/
structure LocalAt (o : Offset) (t : Timestamp) : Prop where
  naive : t.offset = none
  low : 0 ≤ t.instantAt o
  high : t.instantAt o < microSpan

/-- The same local time in whole milliseconds, rounded down. -/
def wholeMillis (t : Timestamp) : Timestamp :=
  ⟨t.wall / 1000 * 1000, Nat.lt_of_le_of_lt (Nat.div_mul_le_self _ _) t.bounded, t.offset⟩

variable {o : Offset} {t : Timestamp}

/-- The instant of a local time, shown in UTC. -/
theorem ofWall?_instantAt (hlow : 0 ≤ t.instantAt o) (hhigh : t.instantAt o < microSpan) :
    ofWall? (t.instantAt o) (some Offset.utc) = some (t.withOffset (some o)).inUtc := by
  have hshown : ofWall? (t.instantAt o) (some Offset.utc) =
      some ⟨(t.instantAt o).toNat, by omega, some Offset.utc⟩ := by
    rw [ofWall?, dif_pos ⟨hlow, by omega⟩]
  have hinstant : (t.withOffset (some o)).instant? = some (t.instantAt o) := rfl
  rw [inUtc, hinstant]
  simp only [ofInstant?]
  rw [show t.instantAt o + Offset.utc.micros = t.instantAt o from Int.add_zero _, hshown]
  rfl

theorem offset_inUtc (h : t.LocalAt o) : (t.withOffset (some o)).inUtc.offset = some Offset.utc := by
  have hshown := ofWall?_instantAt h.low h.high
  unfold ofWall? at hshown
  split at hshown
  · rw [← Option.some.inj hshown]
  · cases hshown

/-- An instant in UTC is the local time in the zone of a fixed offset that it comes from. -/
theorem toZone?_inUtc (h : t.LocalAt o) :
    (t.withOffset (some o)).inUtc.toZone? Offset.utc (.fixed o) = some t := by
  obtain ⟨hnaive, hlow, hhigh⟩ := h
  have hshown := ofWall?_instantAt hlow hhigh
  have hwall : ((t.withOffset (some o)).inUtc.instantAt Offset.utc) = t.instantAt o := by
    unfold ofWall? at hshown
    split at hshown
    · rw [← Option.some.inj hshown]
      show (((t.instantAt o).toNat : Nat) : Int) - 0 = t.instantAt o
      omega
    · cases hshown
  have hback : t.instantAt o + o.micros = t.wall := Int.sub_add_cancel _ _
  rw [toZone?]
  simp only [hwall, hshown, Zone.offsetAtInstant, hback]
  rw [ofWall?, dif_pos ⟨Int.natCast_nonneg _, t.bounded⟩, ← hnaive]
  rfl

end Timestamp

/-! ## Units -/

/-- The units in which timestamps are stored. -/
inductive TimeUnit where
  | millis
  | micros
deriving DecidableEq

namespace TimeUnit

/-- The logical type of instants. -/
def instantName : TimeUnit → String
  | .millis => "timestamp-millis"
  | .micros => "timestamp-micros"

/-- The logical type of local times. -/
def localName : TimeUnit → String
  | .millis => "local-timestamp-millis"
  | .micros => "local-timestamp-micros"

def instantMeaning : TimeUnit → Meaning
  | .millis => .timestampMillis
  | .micros => .timestampMicros

/-- What is left of a local time in whole units. -/
def kept : TimeUnit → Timestamp → Timestamp
  | .millis, t => t.wholeMillis
  | .micros, t => t

/-- The units between 1970 and an instant. -/
def count : TimeUnit → Timestamp → Int
  | .millis, t => timestampMicros t / 1000
  | .micros, t => timestampMicros t

variable {u : TimeUnit} {o : Offset} {t : Timestamp} {minutes : Int}

/-- Offsets of whole minutes do not move the boundaries between milliseconds. -/
theorem instantAt_kept (ho : o.micros = minutes * (60 * secondMicros)) :
    (u.kept t).instantAt o =
      match u with
      | .millis => t.instantAt o / 1000 * 1000
      | .micros => t.instantAt o := by
  cases u with
  | micros => rfl
  | millis =>
    show ((t.wall / 1000 * 1000 : Nat) : Int) - o.micros = ((t.wall : Int) - o.micros) / 1000 * 1000
    rw [ho]
    unfold secondMicros
    omega

theorem localAt_kept (ho : o.micros = minutes * (60 * secondMicros)) (h : t.LocalAt o) :
    (u.kept t).LocalAt o := by
  have hinstant := instantAt_kept (u := u) (t := t) ho
  obtain ⟨hnaive, hlow, hhigh⟩ := h
  cases u with
  | micros => exact ⟨hnaive, hlow, hhigh⟩
  | millis =>
    simp only at hinstant
    exact ⟨hnaive, by rw [hinstant]; omega, by rw [hinstant]; omega⟩

/-- The count of an instant stands for what is left of the local time. -/
theorem wrap_count (ho : o.micros = minutes * (60 * secondMicros)) (h : t.LocalAt o) :
    Binary.wrap (some u.instantMeaning) (.int (u.count (t.withOffset (some o)))) =
      some (.timestamp ((u.kept t).withOffset (some o)).inUtc) := by
  have hkept := localAt_kept (u := u) ho h
  have hshown := Timestamp.ofWall?_instantAt hkept.low hkept.high
  have hinstant := instantAt_kept (u := u) (t := t) ho
  have hepoch : (epochMicros : Int) = 62135596800000000 := rfl
  cases u with
  | micros =>
    show (Timestamp.ofWall? (t.instantAt o - epochMicros + epochMicros) (some Offset.utc)).map _ = _
    rw [Int.sub_add_cancel]
    exact congrArg _ hshown
  | millis =>
    have hcount : (t.instantAt o - epochMicros) / 1000 * 1000 + epochMicros =
        (kept .millis t).instantAt o := by
      rw [hinstant, hepoch]
      simp only
      omega
    show (Timestamp.ofWall? ((t.instantAt o - epochMicros) / 1000 * 1000 + epochMicros)
      (some Offset.utc)).map _ = _
    rw [hcount]
    exact congrArg _ hshown

theorem fitsInt64_count (h : t.LocalAt o) : fitsInt64 (u.count (t.withOffset (some o))) = true := by
  have hspan : microSpan = 315537897600000000 := rfl
  have hepoch : (epochMicros : Int) = 62135596800000000 := rfl
  have hmicros : timestampMicros (t.withOffset (some o)) = t.instantAt o - epochMicros := rfl
  have hlow := h.low
  have hhigh := h.high
  unfold fitsInt64
  simp only [Bool.and_eq_true, decide_eq_true_eq]
  cases u with
  | micros =>
    simp only [count, hmicros]
    omega
  | millis =>
    simp only [count, hmicros]
    omega

/-! ## One field -/

/-- The layout of instants. -/
def instantLayout (u : TimeUnit) : Layout := .primitive .long (some u.instantMeaning)

/-- The bytes of a local time in a zone. -/
def instantBytes (u : TimeUnit) (o : Offset) (t : Timestamp) : List UInt8 :=
  Varint.writeInt (u.count (t.withOffset (some o)))

theorem writes_instant (h : t.LocalAt o) :
    Writes u.instantLayout (.timestamp (t.withOffset (some o))) (u.instantBytes o t) := by
  have hunwrap : Binary.unwrap (some u.instantMeaning) (.timestamp (t.withOffset (some o))) =
      .ok (.int (u.count (t.withOffset (some o)))) := by
    cases u <;> rfl
  have hfits := fitsInt64_count (u := u) h
  refine Binary.writes_primitive hunwrap hfits ?_
  simp only [Binary.writePlain, Binary.whole?, hfits, if_true]
  rfl

theorem reads_instant (ho : o.micros = minutes * (60 * secondMicros)) (h : t.LocalAt o) :
    Reads u.instantLayout (u.instantBytes o t)
      (.timestamp ((u.kept t).withOffset (some o)).inUtc) := by
  refine Binary.reads_primitive (fun rest => ?_) (wrap_count ho h)
  simp only [Binary.readPlain, instantBytes, Binary.readInt_writeInt]
  rfl

section nodes

variable {options : Options} {path : String} {node : Json}

/-- A local time in a document becomes the instant in the zone of the writer. -/
theorem coerce_instant (htype : Schema.typeName node = "long")
    (hlogical : Schema.logicalName? node = some u.instantName) (hzone : options.zone = .fixed o)
    (h : t.offset = none) :
    coerce options path node (.timestamp t) = .ok (.timestamp (t.withOffset (some o))) := by
  have hname : Schema.timestampNames.contains u.instantName = true := by cases u <;> decide
  obtain ⟨hdate, htime⟩ := Coercion.timestampName hname
  have haware : t.isAware = false := by rw [Timestamp.isAware, h]; rfl
  have hshown : t.inZone options.zone = t.withOffset (some o) := by rw [hzone]; rfl
  show Coercion.convert options path node (.timestamp t) = _
  rw [convert_integer (.inr htype), hlogical, Option.getD_some]
  unfold Coercion.toInteger
  rw [if_neg hdate, if_neg htime, if_pos hname]
  simp only [haware, hshown, Bool.false_eq_true, if_false]

/-- An instant that is read becomes the local time in the zone of the reader. -/
theorem coerce_local (htype : Schema.typeName node = "long")
    (hlogical : Schema.logicalName? node = some u.localName) (hzone : options.zone = .fixed o)
    (h : t.LocalAt o) :
    coerce options path node (.timestamp (t.withOffset (some o)).inUtc) = .ok (.timestamp t) := by
  have hname : Schema.localTimestampNames.contains u.localName = true := by cases u <;> decide
  obtain ⟨hdate, htime, hinstant⟩ := Coercion.localTimestampName hname
  show Coercion.convert options path node (.timestamp _) = _
  rw [convert_integer (.inr htype), hlogical, Option.getD_some]
  unfold Coercion.toInteger
  rw [if_neg hdate, if_neg htime, if_neg hinstant, if_pos hname]
  simp only [Timestamp.offset_inUtc h, hzone, Timestamp.toZone?_inUtc h]

end nodes

/-- A field for instants has their layout. -/
theorem layout_eq {P : Json → Prop} {schema : Json} {decls : List (String × Json)} {inner : String}
    {l : Layout} (h : Schema.Within P schema decls inner node l)
    (htype : Schema.typeName node = "long")
    (hlogical : Schema.logicalName? node = some u.instantName) : l = u.instantLayout := by
  obtain ⟨ds, -, hdescribes⟩ := h.inside.described
  cases node with
  | obj ms =>
    rw [hdescribes.primitive (show Primitive.ofName? _ = some .long by rw [htype]; rfl)]
    unfold Layout.meaning?
    rw [hlogical]
    cases u <;> rfl
  | _ => cases hlogical

theorem plain_of_logical {logical inner : String} (htype : Schema.typeName node = "long")
    (hlogical : Schema.logicalName? node = some logical) : Schema.Plain inner node := by
  cases node with
  | obj ms => exact Schema.plain_annotated (by rw [htype]; rfl) inner
  | _ => cases hlogical

end TimeUnit

/-! ## Records of timestamps -/

/-- A record all of whose fields have timestamps of a logical type, which goes by the name of the field.
The fields have distinct original names. -/
structure Schema.IsTimeRecord (purpose : String) (logical : String → String) (schema : Json) : Prop where
  kind : typeName schema = "record"
  long : ∀ f ∈ fieldsOf schema, typeName (typeOf f) = "long"
  logical : ∀ f ∈ fieldsOf schema, logicalName? (typeOf f) = some (logical (nameOf f))
  keys : ((fieldsOf schema).map (altName · purpose)).Nodup

namespace Schema

variable {P : Json → Prop} {schema : Json} {layout : Layout} {decls : List (String × Json)}

/-- A record that is a whole schema, with its fields and their layouts. -/
theorem Sound.record (hs : Sound P schema layout decls) (hkind : typeName schema = "record") :
    ∃ inner name, ∃ pieces : List Piece,
      (Registry.ofSchema schema).resolve schema "" = .ok (schema, inner) ∧ Plain inner schema ∧
      (∀ members, schema ≠ .arr members) ∧ fieldsOf schema = pieces.map (·.node) ∧
      (pieces.map fun p => nameOf p.node).Nodup ∧
      layout = .record name (pieces.map Piece.field) ∧
      ∀ p ∈ pieces, Within P schema decls inner (typeOf p.node) p.layout := by
  have hdescribes := hs.accepted.describes
  cases schema with
  | obj ms =>
    have hnode : ∀ members, Json.obj ms ≠ .arr members := fun _ => Json.noConfusion
    obtain ⟨plain, inner, l, hresolve, hl, hplain, hstands, -⟩ := hs.within.resolve hs hnode
    cases hresolve
    obtain rfl | ⟨name, rfl, -⟩ := hstands
    · cases hl.form hs.hereditary hplain with
      | record _ hfields _ hnames hpieces =>
        exact ⟨_, _, _, rfl, hplain, hnode, hfields, hnames, rfl, hpieces⟩
      | primitive hother => exact absurd hkind (not_kind hother rfl)
      | array hother => exact absurd (hkind.symm.trans hother) (by decide)
    · cases hdescribes
  | str name =>
    obtain rfl : name = "record" := hkind
    cases hdescribes with
    | name hother => cases hother
    | reference _ hmem => cases hmem
  | arr members => exact absurd (show "union" = "record" from hkind) (by decide)
  | _ => cases hdescribes

end Schema

/-- A record with one field has a layout when the field has one. -/
theorem Layout.ofSchema_oneField {record field inner name : String} {type : Json} {l : Layout}
    (hname : freshName [] "" [("type", .str "record"), ("name", .str record),
      ("fields", .arr [.obj [("name", .str field), ("type", type)]])] = .ok (inner, name))
    (h : ofNode [name] inner none type = .ok (l, [name])) :
    ofSchema (Schema.oneField record field type) = .ok (.record name [(field, none, l)]) := by
  have hkind : Schema.typeName (.obj [("type", .str "record"), ("name", .str record),
      ("fields", .arr [.obj [("name", .str field), ("type", type)]])]) = "record" := rfl
  have hfields : ofFields [name] inner
      [.obj [("name", .str field), ("type", type)]] = .ok ([(field, none, l)], [name]) := by
    simp [ofFields, Json.isObj, isArray, Json.getD, Json.get?, Json.members, lookup?, Json.has, h,
      Schema.nameOf]
    rfl
  unfold ofSchema Schema.oneField
  rw [ofNode]
  simp [hkind, hname, hfields, lookup?, checkLogical, requireDefault]
  rfl

/-! ## One record -/

section record

open Schema (Sound IsTimeRecord)
open Binary (entriesFor)

variable {P : Json → Prop} {schema : Json} {layout : Layout} {decls : List (String × Json)}
  {options : Options} {unit : String → TimeUnit} {o : Offset} {minutes : Int}
  {time : String → Timestamp}

/-- The struct of a record with some timestamps, each under the original name of its field. -/
def timeDocument (purpose : String) (schema : Json) (time : String → Timestamp) : Value :=
  .struct (entriesFor (Schema.altName · purpose) (fun f => .timestamp (time (Schema.nameOf f)))
    (Schema.fieldsOf schema))

/-- The datum of a record with some timestamps, each under the name of its field. -/
def timeDatum (schema : Json) (time : String → Timestamp) : Value :=
  .struct (entriesFor Schema.nameOf (fun f => .timestamp (time (Schema.nameOf f)))
    (Schema.fieldsOf schema))

/-- The bytes of a record with some local times. -/
def timeBytes (unit : String → TimeUnit) (o : Offset) (schema : Json) (time : String → Timestamp) :
    List UInt8 :=
  (Schema.fieldsOf schema).flatMap fun f =>
    (unit (Schema.nameOf f)).instantBytes o (time (Schema.nameOf f))

/-- Local times are prepared as the instants in the zone of the writer. -/
theorem prepare_localTimes (hs : Sound P schema layout decls)
    (hrecord : IsTimeRecord options.altNamesKey (fun name => (unit name).instantName) schema)
    (hzone : options.zone = .fixed o)
    (hnaive : ∀ f ∈ Schema.fieldsOf schema, (time (Schema.nameOf f)).offset = none) :
    Encoding.prepareNode options (Schema.Registry.ofSchema schema) "" Pointer.root schema
        (timeDocument options.altNamesKey schema time) =
      .ok (timeDatum schema fun name => (time name).withOffset (some o)) := by
  obtain ⟨inner, name, pieces, hresolve, hplain, hnode, hfields, -, -, -⟩ :=
    hs.record hrecord.kind
  have hmem : ∀ p ∈ pieces, p.node ∈ Schema.fieldsOf schema := by
    rw [hfields]
    exact fun p hp => List.mem_map_of_mem hp
  have hkeys := hrecord.keys
  have hmember : ∀ p ∈ pieces,
      Value.member? (Schema.altName p.node options.altNamesKey)
        (entriesFor (Schema.altName · options.altNamesKey)
          (fun f => .timestamp (time (Schema.nameOf f))) (Schema.fieldsOf schema)) =
        some (.timestamp (time (Schema.nameOf p.node))) :=
    fun p hp => Binary.member?_entriesFor hkeys (hmem p hp)
  have hentries : ∀ e ∈ entriesFor (Schema.altName · options.altNamesKey)
      (fun f => Value.timestamp (time (Schema.nameOf f))) (Schema.fieldsOf schema),
      ∃ p ∈ pieces, e.1 = .text (Schema.altName p.node options.altNamesKey) := by
    intro e he
    obtain ⟨f, hf, rfl⟩ := List.mem_map.mp he
    rw [hfields] at hf
    obtain ⟨p, hp, rfl⟩ := List.mem_map.mp hf
    exact ⟨p, hp, rfl⟩
  have hfield : ∀ p ∈ pieces, ∀ path, Encoding.prepareNode options (Schema.Registry.ofSchema schema)
      inner path (Schema.typeOf p.node) (.timestamp (time (Schema.nameOf p.node))) =
        .ok (.timestamp ((time (Schema.nameOf p.node)).withOffset (some o))) := by
    intro p hp path
    have hlong := hrecord.long p.node (hmem p hp)
    have hlogical := hrecord.logical p.node (hmem p hp)
    exact (prepareNode_primitive (r := ⟨schema, Schema.Registry.ofSchema schema, options, false⟩)
      (TimeUnit.plain_of_logical hlong hlogical) (by rw [hlong]; rfl) _ path).trans
        (TimeUnit.coerce_instant hlong hlogical hzone (hnaive p.node (hmem p hp)))
  have hprepared := prepareNode_fields
    (r := ⟨schema, Schema.Registry.ofSchema schema, options, false⟩) hplain hrecord.kind hfields
    hmember hentries hfield Pointer.root
  rw [prepareNode_plain hplain] at hprepared
  rw [Encoding.prepareNode_other hnode, hresolve, timeDatum, hfields, entriesFor, List.map_map]
  exact hprepared

/-- The instants are written, field by field, and read as what is left of them in UTC. -/
theorem layout_localTimes (ho : o.micros = minutes * (60 * secondMicros))
    (hs : Sound P schema layout decls)
    (hrecord : IsTimeRecord options.altNamesKey (fun name => (unit name).instantName) schema)
    (hlocal : ∀ f ∈ Schema.fieldsOf schema, (time (Schema.nameOf f)).LocalAt o) :
    Writes layout (timeDatum schema fun name => (time name).withOffset (some o))
        (timeBytes unit o schema time) ∧
      Reads layout (timeBytes unit o schema time)
        (timeDatum schema fun name => (((unit name).kept (time name)).withOffset (some o)).inUtc) := by
  obtain ⟨inner, name, pieces, -, -, -, hfields, hnames, rfl, hpieces⟩ := hs.record hrecord.kind
  have hmem : ∀ p ∈ pieces, p.node ∈ Schema.fieldsOf schema := by
    rw [hfields]
    exact fun p hp => List.mem_map_of_mem hp
  have hlayout : ∀ p ∈ pieces, p.layout = (unit (Schema.nameOf p.node)).instantLayout := fun p hp =>
    TimeUnit.layout_eq (hpieces p hp) (hrecord.long p.node (hmem p hp))
      (hrecord.logical p.node (hmem p hp))
  have hshape : pieces.map Schema.Piece.field =
      Binary.fieldsFor (fun p => Schema.nameOf p.node) (·.default) (·.layout) pieces := rfl
  rw [timeDatum, timeDatum, timeBytes, hfields, hshape, entriesFor, entriesFor, List.map_map,
    List.map_map, List.flatMap_map]
  constructor
  · refine Binary.writes_record name hnames fun p hp => ?_
    rw [hlayout p hp]
    exact TimeUnit.writes_instant (hlocal p.node (hmem p hp))
  · refine Binary.reads_record name hnames fun p hp => ?_
    rw [hlayout p hp]
    exact TimeUnit.reads_instant ho (hlocal p.node (hmem p hp))

/-- Only the names of the fields count for the datum of a record. -/
theorem timeDatum_congr {written : Json}
    (h : (Schema.fieldsOf schema).map Schema.nameOf = (Schema.fieldsOf written).map Schema.nameOf) :
    timeDatum written time = timeDatum schema time := by
  have hnames (schema : Json) : timeDatum schema time =
      .struct (((Schema.fieldsOf schema).map Schema.nameOf).map fun name =>
        (.text name, .timestamp (time name))) := by
    rw [timeDatum, entriesFor, List.map_map]
    rfl
  rw [hnames, hnames, h]

/-- Instants in UTC are reconciled with a record of local times as the local times in the zone of the
reader. -/
theorem toValue_localTimes {written : Json} {strict : Bool} (hs : Sound P schema layout decls)
    (hrecord : IsTimeRecord options.altNamesKey (fun name => (unit name).localName) schema)
    (hnames : (Schema.fieldsOf schema).map Schema.nameOf =
      (Schema.fieldsOf written).map Schema.nameOf)
    (hzone : options.zone = .fixed o)
    (hlocal : ∀ f ∈ Schema.fieldsOf schema, (time (Schema.nameOf f)).LocalAt o) :
    Reconciler.toValue ⟨schema, Schema.Registry.ofSchema schema, options, strict⟩
        (timeDatum written fun name => ((time name).withOffset (some o)).inUtc) =
      .ok (timeDocument options.altNamesKey schema time) := by
  obtain ⟨inner, name, pieces, hresolve, hplain, hnode, hfields, hdistinct, -, -⟩ :=
    hs.record hrecord.kind
  have hmem : ∀ p ∈ pieces, p.node ∈ Schema.fieldsOf schema := by
    rw [hfields]
    exact fun p hp => List.mem_map_of_mem hp
  have hfield : ∀ p ∈ pieces, ∀ path,
      Reconciler.valueNode ⟨schema, Schema.Registry.ofSchema schema, options, strict⟩ inner path
          (Schema.typeOf p.node)
          (.timestamp ((time (Schema.nameOf p.node)).withOffset (some o)).inUtc) =
        .ok (.timestamp (time (Schema.nameOf p.node))) := by
    intro p hp path
    have hlong := hrecord.long p.node (hmem p hp)
    have hlogical := hrecord.logical p.node (hmem p hp)
    rw [valueNode_primitive (TimeUnit.plain_of_logical hlong hlogical) (by rw [hlong]; rfl)]
    simp only [Decoding.scalarValue,
      TimeUnit.coerce_local hlong hlogical hzone (hlocal p.node (hmem p hp))]
  have hkeys := hrecord.keys
  rw [hfields, List.map_map] at hkeys
  have hvalue := valueNode_fields
    (r := ⟨schema, Schema.Registry.ofSchema schema, options, strict⟩) hplain hrecord.kind hfields hkeys
    (fun p hp => Binary.member?_entriesFor hdistinct hp) (fun e he => ?_) hfield Pointer.root
  · rw [valueNode_plain hplain] at hvalue
    rw [timeDatum_congr hnames, Reconciler.toValue, Reconciler.valueNode_other hnode, hresolve,
      timeDatum, timeDocument, hfields, entriesFor, entriesFor, List.map_map, List.map_map]
    exact hvalue
  · obtain ⟨p, hp, rfl⟩ := List.mem_map.mp he
    exact ⟨p, hp, rfl⟩

end record

/-! ## Containers -/

/-- Documents that are prepared, written, read and reconciled one by one, in a container. -/
theorem delivers_steps {α : Type} {as : List α} {document datum stored view : α → Value}
    {bytes : α → List UInt8} {e : Encoder} {reader : Decoder} (ht : e.schema.Tidy)
    (hlayout : Layout.ofSchema e.schema = .ok e.layout)
    (hcodec : Container.codecs.contains e.options.codec = true)
    (hs : e.options.syncMarker.length = 16)
    (hcheck : ∀ header : Container.Header, reader.checkHeader header = .ok ())
    (hprepare : ∀ a ∈ as, e.prepare (document a) = .ok (datum a))
    (hwrite : ∀ a ∈ as, Binary.write e.layout (datum a) = .ok (bytes a))
    (hread : ∀ a ∈ as, Binary.Holds e.layout (bytes a) (stored a))
    (hvalue : ∀ a ∈ as, ∀ header, (reader.reconcilerFor header).toValue (stored a) = .ok (view a)) :
    (e.encode (as.map document)).outcome = .ok as.length ∧
      Delivers (reader.results true (e.encode (as.map document)).bytes) (as.map view) := by
  let datumOf (doc : Value) : Value := (e.prepare doc).toOption.getD .null
  let bytesOf (doc : Value) : List UInt8 := (Binary.write e.layout (datumOf doc)).toOption.getD []
  have hdatum : ∀ a ∈ as, datumOf (document a) = datum a := fun a ha => by
    simp only [datumOf, hprepare a ha, Except.toOption, Option.getD_some]
  have hbytes : ∀ a ∈ as, bytesOf (document a) = bytes a := fun a ha => by
    simp only [bytesOf, hdatum a ha, hwrite a ha, Except.toOption, Option.getD_some]
  have hdocs : ∀ doc ∈ as.map document, e.prepare doc = .ok (datumOf doc) ∧
      Binary.write e.layout (datumOf doc) = .ok (bytesOf doc) := by
    intro doc hdoc
    obtain ⟨a, ha, rfl⟩ := List.mem_map.mp hdoc
    rw [hdatum a ha, hbytes a ha]
    exact ⟨hprepare a ha, hwrite a ha⟩
  have hall : (as.map document).map bytesOf = as.map bytes := by
    rw [List.map_map]
    exact List.map_congr_left hbytes
  have hencode := Encoder.encode_documents hcodec (fun doc hdoc => (hdocs doc hdoc).1)
    fun doc hdoc => (hdocs doc hdoc).2
  rw [hall, List.length_map] at hencode
  rw [hencode]
  refine ⟨rfl, ?_⟩
  simp only
  rw [reader.results_header ht hlayout hcodec hs (hcheck _)]
  exact Decoder.blocksOf_records hs rfl hread (fun a ha => hvalue a ha _) e.options.syncInterval

open Schema (IsTimeRecord)

/-- Local times that a writer stores as instants in the zone of a fixed offset come back, in whole units,
to a reader in the same zone whose fields are local times. -/
theorem decode_encode_localTimes {settings settings' : Settings} {options options' : Options}
    {schema schema' : Json} {e : Encoder} {d : Decoder} {o : Offset} {unit : String → TimeUnit}
    (ho : Options.ofSettings settings = .ok options)
    (ho' : Options.ofSettings settings' = .ok options')
    (hcodec : Container.codecs.contains settings.codec = true)
    (hlenient : settings'.strictUnknownFields = false)
    (hzone : Zone.ofId settings.regions settings.timeZoneId = .ok (.fixed o))
    (hsame : settings'.timeZoneId = settings.timeZoneId) (ht : schema.Tidy)
    (he : Encoder.ofSchema options schema = .ok e)
    (hd : Decoder.ofSchema options' (some schema') = .ok d)
    (hwriter : IsTimeRecord options.altNamesKey (fun name => (unit name).instantName) schema)
    (hreader : IsTimeRecord options'.altNamesKey (fun name => (unit name).localName) schema')
    (hnames : (Schema.fieldsOf schema').map Schema.nameOf =
      (Schema.fieldsOf schema).map Schema.nameOf)
    {times : List (String → Timestamp)}
    (htimes : ∀ time ∈ times, ∀ f ∈ Schema.fieldsOf schema, (time (Schema.nameOf f)).LocalAt o) :
    let run := e.encode (times.map (timeDocument options.altNamesKey schema))
    run.outcome = .ok times.length ∧
      d.decode true run.bytes = Feed.ofList (times.map fun time =>
        timeDocument options'.altNamesKey schema' fun name => (unit name).kept (time name)) := by
  intro run
  obtain ⟨hcodecs, hmarker, hlength⟩ := ofSettings_marker ho
  have hwriterZone := (ofSettings_given ho).zone
  have hreaderZone := (ofSettings_given ho').zone
  have hstrict := (ofSettings_given ho').strictUnknownFields
  obtain ⟨hanywhere, minutes, hminutes⟩ := Zone.ofId_fixed hzone
  have hin : options.zone = .fixed o := Except.ok.inj (hwriterZone.symm.trans hzone)
  have hin' : options'.zone = .fixed o := by
    rw [hsame] at hreaderZone
    exact Except.ok.inj (hreaderZone.symm.trans (hanywhere settings'.regions))
  obtain ⟨layout, hcheck, hlayout, hregular, rfl⟩ := Encoder.ofSchema_parts he
  obtain ⟨layout', hcheck', hlayout', hregular', rfl⟩ := Decoder.ofSchema_parts hd
  obtain ⟨_, hsound⟩ := Schema.sound_of_layout (Schema.hereditary_typeIn _) .whole hlayout hregular
  obtain ⟨_, hsound'⟩ :=
    Schema.sound_of_layout (Schema.hereditary_typeIn _) .whole hlayout' hregular'
  have hkept : ∀ time ∈ times, ∀ f ∈ Schema.fieldsOf schema',
      ((unit (Schema.nameOf f)).kept (time (Schema.nameOf f))).LocalAt o := by
    intro time htime f hf
    have hname := List.mem_map_of_mem (f := Schema.nameOf) hf
    rw [hnames] at hname
    obtain ⟨g, hg, hsameName⟩ := List.mem_map.mp hname
    rw [← hsameName]
    exact TimeUnit.localAt_kept hminutes (htimes time htime g hg)
  have hcodec' : Container.codecs.contains options.codec = true := by
    rw [hcodecs]
    exact hcodec
  have hsync : options.syncMarker.length = 16 := by
    rw [hmarker]
    exact hlength
  have hheader (header : Container.Header) : Decoder.checkHeader
      ⟨some (schema', Schema.Registry.ofSchema schema', layout'), options'⟩ header = .ok () := by
    rw [Decoder.checkHeader]
    simp only [hstrict, hlenient, Bool.false_eq_true, if_false]
  have hprepare : ∀ time ∈ times,
      Encoder.prepare ⟨schema, Schema.Registry.ofSchema schema, layout, options⟩
          (timeDocument options.altNamesKey schema time) =
        .ok (timeDatum schema fun name => (time name).withOffset (some o)) :=
    fun time htime => prepare_localTimes hsound hwriter hin fun f hf => (htimes time htime f hf).naive
  have hvalue : ∀ time ∈ times, ∀ header, (Decoder.reconcilerFor
      ⟨some (schema', Schema.Registry.ofSchema schema', layout'), options'⟩ header).toValue
        (timeDatum schema fun name => (((unit name).kept (time name)).withOffset (some o)).inUtc) =
      .ok (timeDocument options'.altNamesKey schema' fun name => (unit name).kept (time name)) :=
    fun time htime header => toValue_localTimes hsound' hreader hnames hin' (hkept time htime)
  obtain ⟨houtcome, hdelivers⟩ := delivers_steps ht hlayout hcodec' hsync hheader hprepare
    (fun time htime => (layout_localTimes hminutes hsound hwriter (htimes time htime)).1.write_eq)
    (fun time htime => (layout_localTimes hminutes hsound hwriter (htimes time htime)).2.holds) hvalue
  exact ⟨houtcome, Decoder.documents_of_delivers _ hdelivers⟩

/-- The last microsecond before 1970, in milliseconds, three and a half hours west of UTC. -/
theorem decode_encode_localTimes_before_1970 :
    let schema (logical : String) : Json := Schema.oneField "R" "x"
      (.obj [("type", .str "long"), ("logicalType", .str logical)])
    let settings : Settings := { typeName := "R", namespaceName := "", timeZoneId := "-03:30",
                                 syncMarker := List.replicate 16 7 }
    let zone : Offset := ⟨-12600000000, by decide⟩
    let last : Timestamp := ⟨62135596799999999, by decide, none⟩
    let whole : Timestamp := ⟨62135596799999000, by decide, none⟩
    let document (t : Timestamp) : Value := .struct [(.text "x", .timestamp t)]
    ∃ options e d, Options.ofSettings settings = .ok options ∧
      Zone.ofId settings.regions settings.timeZoneId = .ok (.fixed zone) ∧
      Encoder.ofSchema options (schema "timestamp-millis") = .ok e ∧
      Decoder.ofSchema options (some (schema "local-timestamp-millis")) = .ok d ∧
      last.LocalAt zone ∧ (e.encode [document last]).outcome = .ok 1 ∧
      d.decode true (e.encode [document last]).bytes = Feed.ofList [document whole] := by
  intro schema settings zone last whole document
  let writer := schema "timestamp-millis"
  let reader := schema "local-timestamp-millis"
  let options : Options :=
    { Options.standard "R" "" (List.replicate 16 7) with zone := .fixed zone }
  have hzone : Zone.ofId settings.regions settings.timeZoneId = .ok (.fixed zone) := by cbv
  have ho : Options.ofSettings settings = .ok options := by cbv
  have hlocal : last.LocalAt zone := ⟨rfl, by decide, by decide⟩
  let layout (meaning : Meaning) : Layout :=
    .record "R" [("x", none, .primitive .long (some meaning))]
  have hlayout : Layout.ofSchema writer = .ok (layout .timestampMillis) :=
    Layout.ofSchema_oneField (by cbv) (by rw [Layout.ofNode]; rfl)
  have hlayout' : Layout.ofSchema reader = .ok (layout .localTimestampMillis) :=
    Layout.ofSchema_oneField (by cbv) (by rw [Layout.ofNode]; rfl)
  have hcheck : Schema.check writer = .ok (Schema.Registry.ofSchema writer) := by decide +kernel
  have hcheck' : Schema.check reader = .ok (Schema.Registry.ofSchema reader) := by decide +kernel
  have he : Encoder.ofSchema options writer =
      .ok ⟨writer, Schema.Registry.ofSchema writer, layout .timestampMillis, options⟩ :=
    Encoder.ofSchema_eq _ hcheck hlayout
  have hd : Decoder.ofSchema options (some reader) =
      .ok ⟨some (reader, Schema.Registry.ofSchema reader, layout .localTimestampMillis), options⟩ :=
    Decoder.ofSchema_eq _ hcheck' hlayout'
  have htidy : writer.Tidy := by
    simp [writer, schema, Schema.oneField, Json.tidy_obj_iff, Json.tidy_arr_iff, Json.Tidy.str]
  have hwriter : IsTimeRecord options.altNamesKey (fun _ => TimeUnit.millis.instantName) writer :=
    ⟨rfl, by decide, by decide, by decide⟩
  have hreader : IsTimeRecord options.altNamesKey (fun _ => TimeUnit.millis.localName) reader :=
    ⟨rfl, by decide, by decide, by decide⟩
  have hwritten : timeDocument options.altNamesKey writer (fun _ => last) = document last := rfl
  have hkept : TimeUnit.millis.kept last = whole := by decide
  have hread : timeDocument options.altNamesKey reader (fun _ => whole) = document whole := rfl
  obtain ⟨houtcome, hdecode⟩ := decode_encode_localTimes ho ho rfl rfl hzone rfl htidy he hd hwriter
    hreader rfl (show ∀ time ∈ [fun _ => last], _ from fun time htime f _ => by
      obtain rfl := List.mem_singleton.mp htime
      exact hlocal)
  simp only [List.map_cons, List.map_nil, hwritten, hkept, hread] at houtcome hdecode
  exact ⟨options, _, _, ho, hzone, he, hd, hlocal, houtcome, hdecode⟩

end AvroDocument
