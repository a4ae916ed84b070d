import AvroDocument.Proofs.ReadBack

/-!
# AvroDocument.Proofs.Conformance

What the data of a primitive node are. Coercion makes nothing else, and it leaves every one of them
as it is, so that the data of a node are the fixed points of coercion there.

* `DatumKind.ofNode?`: the one kind of data that a primitive node stands for.
* `DatumKind.holds`: whether a value is a datum of a kind.
* `DatumKind.holds_of_coerce`, `DatumKind.coerce_of_holds`: what is made is a datum of the node, and a
  datum of the node stays.
* `coerce_conforms`: coercion is conforming and idempotent.
-/

namespace AvroDocument

open Coercion

theorem fitsInt64_of_fitsInt32 {n : Int} (h : fitsInt32 n = true) : fitsInt64 n = true := by
  simp only [fitsInt32, fitsInt64, Bool.and_eq_true, decide_eq_true_eq] at h ⊢
  omega

/-- The time that a zone shows has no offset. -/
theorem Timestamp.offset_toZone? {t s : Timestamp} {offset : Offset} {zone : Calendar.Zone}
    (h : t.toZone? offset zone = some s) : s.offset = none := by
  unfold toZone? at h
  simp only at h
  split at h
  · cases h
  · unfold ofWall? at h
    split at h <;> cases h
    rfl

/-! ## Kinds of data -/

/-- What the data of a primitive node are. An instant is a timestamp with an offset, a local time one
without. -/
inductive DatumKind where
  | null
  | boolean
  | int32
  | int64
  | float
  | text
  | bytes
  | date
  | time
  | instant
  | localTime
  | decimal (scale : Int)
deriving DecidableEq

namespace DatumKind

/-- What an annotation makes of integers. -/
def ofLogical (integer : DatumKind) (logical : String) : DatumKind :=
  if logical = "date" then .date
  else if Schema.timeNames.contains logical then .time
  else if Schema.timestampNames.contains logical then .instant
  else if Schema.localTimestampNames.contains logical then .localTime
  else integer

/-- The kind of data that a node of a primitive type stands for. A decimal node whose scale is no
integer, or one that decimal arithmetic has no exponent for, stands for none. -/
def ofType? (node : Json) : Primitive → Option DatumKind
  | .null => some .null
  | .boolean => some .boolean
  | .int => some (ofLogical .int32 ((Schema.logicalName? node).getD ""))
  | .long => some (ofLogical .int64 ((Schema.logicalName? node).getD ""))
  | .float => some .float
  | .double => some .float
  | .string => some .text
  | .bytes =>
    if Schema.logicalName? node = some "decimal" then
      match scaleOf node with
      | .ok scale =>
        if scale.natAbs ≤ Decimal.shiftLimit ∧ -scale ≤ Decimal.workingExponent then
          some (.decimal scale)
        else none
      | .error _ => none
    else some .bytes

/-- The one kind of data that a primitive node stands for. -/
def ofNode? (node : Json) : Option DatumKind :=
  (Primitive.ofName? (Schema.typeName node)).bind (ofType? node)

/-- Whether a value is a datum of a kind. A decimal has minus its scale as exponent, or the least
exponent of decimal arithmetic if that is greater, and no more digits than there is room for. -/
def holds : DatumKind → Value → Bool
  | .null, .null => true
  | .boolean, .bool _ => true
  | .int32, .int n => fitsInt32 n
  | .int64, .int n => fitsInt64 n
  | .float, .float _ => true
  | .text, .text _ => true
  | .bytes, .bytes _ => true
  | .date, .date _ => true
  | .time, .time _ => true
  | .instant, .timestamp t => t.isAware
  | .localTime, .timestamp t => !t.isAware
  | .decimal scale, .decimal (.finite _ c exponent) =>
    exponent == max (-scale) Decimal.workingFloor && decide (c < 10 ^ Decimal.digitsAt exponent)
  | _, _ => false

/-- The kind of interchange values that the data of a kind are. -/
def valueKind : DatumKind → Kind
  | .null => .null
  | .boolean => .bool
  | .int32 => .int
  | .int64 => .int
  | .float => .float
  | .text => .text
  | .bytes => .bytes
  | .date => .date
  | .time => .time
  | .instant => .timestamp
  | .localTime => .timestamp
  | .decimal _ => .decimal

variable {options : Options} {path : String} {node : Json} {type : Primitive} {kind : DatumKind}
  {integer : DatumKind} {typeName logical : String} {scale : Int} {v w : Value}

/-- A datum is an interchange value of its kind. -/
theorem kind?_of_holds (h : kind.holds w = true) : w.kind? = some kind.valueKind := by
  cases kind with
  | int32 =>
    cases w with
    | int n => exact congrArg some (if_pos (fitsInt64_of_fitsInt32 h))
    | _ => cases h
  | int64 =>
    cases w with
    | int n => exact congrArg some (if_pos h)
    | _ => cases h
  | _ => cases w <;> first | rfl | cases h

/-! ## Integers and what annotations make of them -/

/-- The data of an integer type are the integers that it has room for. -/
theorem holds_integer
    (hwidth : integer = .int32 ∧ typeName = "int" ∨ integer = .int64 ∧ typeName = "long") :
    integer.holds w = true ↔
      ∃ n, w = .int n ∧ (if typeName = "int" then fitsInt32 n else fitsInt64 n) = true := by
  obtain ⟨rfl, rfl⟩ | ⟨rfl, rfl⟩ := hwidth <;> cases w <;> simp [holds]

theorem holds_instant (hl : Schema.timestampNames.contains logical = true)
    (h : toInteger options path node typeName logical v = .ok w) : instant.holds w = true := by
  obtain ⟨hdate, htime⟩ := timestampName hl
  unfold toInteger at h
  rw [if_neg hdate, if_neg htime, if_pos hl] at h
  split at h
  · rename_i t
    cases h
    show Timestamp.isAware _ = true
    split
    · assumption
    · rfl
  · cases h

theorem holds_localTime (hl : Schema.localTimestampNames.contains logical = true)
    (h : toInteger options path node typeName logical v = .ok w) : localTime.holds w = true := by
  obtain ⟨hdate, htime, hinstant⟩ := localTimestampName hl
  have hnaive {t : Timestamp} (ht : t.offset = none) : localTime.holds (.timestamp t) = true := by
    rw [holds, Timestamp.isAware, ht]
    rfl
  unfold toInteger at h
  rw [if_neg hdate, if_neg htime, if_neg hinstant, if_pos hl] at h
  split at h
  · split at h
    · rename_i hoffset
      cases h
      exact hnaive hoffset
    · split at h
      · rename_i hzone
        cases h
        exact hnaive (Timestamp.offset_toZone? hzone)
      · cases h
  · cases h

/-- What is made at an integer node is of the kind that the annotation makes of its integers. -/
theorem holds_toInteger
    (hwidth : integer = .int32 ∧ typeName = "int" ∨ integer = .int64 ∧ typeName = "long")
    (h : toInteger options path node typeName logical v = .ok w) :
    (ofLogical integer logical).holds w = true := by
  unfold ofLogical
  split
  · rename_i hdate
    subst hdate
    obtain ⟨d, rfl⟩ := toInteger_date h
    rfl
  rename_i hdate
  split
  · rename_i htime
    obtain ⟨t, rfl⟩ := toInteger_time htime h
    rfl
  rename_i htime
  split
  · rename_i hinstant
    exact holds_instant hinstant h
  rename_i hinstant
  split
  · rename_i hlocal
    exact holds_localTime hlocal h
  rename_i hlocal
  unfold toInteger at h
  rw [if_neg hdate, if_neg htime, if_neg hinstant, if_neg hlocal] at h
  split at h
  · rename_i n
    simp only at h
    by_cases hfits : (if typeName = "int" then fitsInt32 n else fitsInt64 n) = true
    · rw [if_pos hfits] at h
      cases h
      exact (holds_integer hwidth).mpr ⟨n, rfl, hfits⟩
    · rw [if_neg hfits] at h
      split at h <;> cases h
  · cases h

/-- Such a datum stays as it is at the node. -/
theorem toInteger_of_holds
    (hwidth : integer = .int32 ∧ typeName = "int" ∨ integer = .int64 ∧ typeName = "long")
    (h : (ofLogical integer logical).holds w = true) :
    toInteger options path node typeName logical w = .ok w := by
  unfold ofLogical at h
  split at h
  · rename_i hdate
    cases w <;> cases h
    unfold toInteger
    exact if_pos hdate
  rename_i hdate
  split at h
  · rename_i htime
    cases w <;> cases h
    exact toInteger_keepsTime htime _
  rename_i htime
  split at h
  · rename_i hinstant
    cases w with
    | timestamp t => exact toInteger_keepsTimestamp hinstant h
    | _ => cases h
  rename_i hinstant
  split at h
  · rename_i hlocal
    cases w with
    | timestamp t =>
      rw [holds, Timestamp.isAware, Bool.not_eq_true', Option.isSome_eq_false_iff,
        Option.isNone_iff_eq_none] at h
      exact toInteger_keepsLocal hlocal h
    | _ => cases h
  rename_i hlocal
  obtain ⟨n, rfl, hfits⟩ := (holds_integer hwidth).mp h
  unfold toInteger
  rw [if_neg hdate, if_neg htime, if_neg hinstant, if_neg hlocal]
  simp only [hfits, if_true]

/-! ## Decimals -/

theorem holds_decimal {target : Int} (ht : target = max (-scale) Decimal.workingFloor) :
    (decimal scale).holds w = true ↔
      ∃ negative c, w = .decimal (.finite negative c target) ∧ c < 10 ^ Decimal.digitsAt target := by
  subst ht
  constructor
  · intro h
    cases w with
    | decimal d =>
      cases d with
      | finite negative c exponent =>
        simp only [holds, Bool.and_eq_true, beq_iff_eq, decide_eq_true_eq] at h
        obtain ⟨rfl, hroom⟩ := h
        exact ⟨negative, c, rfl, hroom⟩
      | _ => cases h
    | _ => cases h
  · rintro ⟨negative, c, rfl, hroom⟩
    simp only [holds, BEq.rfl, hroom, decide_true, Bool.and_self]

/-! ## Conversion -/

theorem convert_null (hname : Schema.typeName node = "null") :
    convert options path node v =
      match v with
      | .null => .ok .null
      | v => refuse path node v := by
  unfold convert
  exact if_pos hname

/-- What is made at a bytes node is a decimal of its scale or bytes. -/
theorem holds_toBytes
    (h : toBytes path node ((Schema.logicalName? node).getD "") v = .ok w) :
    ∃ kind, ofType? node .bytes = some kind ∧ kind.holds w = true := by
  unfold toBytes at h
  rw [ofType?]
  split at h
  · rename_i hlogical
    rw [if_pos (logicalName?_decimal.mp hlogical)]
    split at h
    · obtain ⟨scale, target, negative, c, hscale, ht, hroom, rfl⟩ := scaled_ok h
      obtain ⟨hnear, htarget⟩ := targetOf_eq_ok.mp ht
      simp only [hscale, if_pos hnear]
      exact ⟨_, rfl, (holds_decimal htarget).mpr ⟨negative, c, rfl, hroom⟩⟩
    · cases h
  · rename_i hlogical
    rw [if_neg (mt logicalName?_decimal.mpr hlogical)]
    refine ⟨_, rfl, ?_⟩
    split at h <;> cases h <;> rfl

/-- Such a datum stays as it is at the node. -/
theorem toBytes_of_holds (hkind : ofType? node .bytes = some kind) (h : kind.holds w = true) :
    toBytes path node ((Schema.logicalName? node).getD "") w = .ok w := by
  rw [ofType?] at hkind
  unfold toBytes
  split at hkind
  · rename_i hlogical
    rw [if_pos (logicalName?_decimal.mpr hlogical)]
    split at hkind
    · rename_i scale hscale
      split at hkind <;> cases hkind
      rename_i hnear
      obtain ⟨negative, c, rfl, hroom⟩ := (holds_decimal rfl).mp h
      refine scaled_finite.mpr ⟨scale, _, c, hscale, targetOf_eq_ok.mpr ⟨hnear, rfl⟩, ?_, hroom, rfl⟩
      rw [Int.sub_self, zpow_zero, mul_one]
    · cases hkind
  · rename_i hlogical
    rw [if_neg (mt logicalName?_decimal.mp hlogical)]
    cases hkind
    cases w <;> cases h
    rfl

/-- What is made of a value at a primitive node is a datum of the node. -/
theorem holds_of_convert (hnode : Primitive.ofName? (Schema.typeName node) = some type)
    (h : convert options path node v = .ok w) :
    ∃ kind, ofType? node type = some kind ∧ kind.holds w = true := by
  have hname := Primitive.eq_name hnode
  cases type with
  | null =>
    rw [convert_null hname] at h
    split at h <;> cases h
    exact ⟨_, rfl, rfl⟩
  | boolean =>
    rw [convert_boolean hname] at h
    split at h <;> cases h
    exact ⟨_, rfl, rfl⟩
  | int =>
    rw [convert_integer (.inl hname), hname] at h
    exact ⟨_, rfl, holds_toInteger (.inl ⟨rfl, rfl⟩) h⟩
  | long =>
    rw [convert_integer (.inr hname), hname] at h
    exact ⟨_, rfl, holds_toInteger (.inr ⟨rfl, rfl⟩) h⟩
  | float =>
    rw [convert_float (.inl hname)] at h
    obtain ⟨x, rfl⟩ := toFloat_ok h
    exact ⟨_, rfl, rfl⟩
  | double =>
    rw [convert_float (.inr hname)] at h
    obtain ⟨x, rfl⟩ := toFloat_ok h
    exact ⟨_, rfl, rfl⟩
  | bytes =>
    rw [convert_bytes hname] at h
    exact holds_toBytes h
  | string =>
    rw [convert_string hname, Coercion.toString] at h
    split at h <;> cases h
    exact ⟨_, rfl, rfl⟩

/-- A datum of a primitive node stays as it is when it is converted there. -/
theorem convert_of_holds (hnode : Primitive.ofName? (Schema.typeName node) = some type)
    (hkind : ofType? node type = some kind) (h : kind.holds w = true) :
    convert options path node w = .ok w := by
  have hname := Primitive.eq_name hnode
  cases type with
  | null =>
    cases hkind
    cases w <;> cases h
    exact convert_null hname
  | boolean =>
    cases hkind
    cases w <;> cases h
    exact convert_boolean hname _ _
  | int =>
    cases hkind
    rw [convert_integer (.inl hname), hname]
    exact toInteger_of_holds (.inl ⟨rfl, rfl⟩) h
  | long =>
    cases hkind
    rw [convert_integer (.inr hname), hname]
    exact toInteger_of_holds (.inr ⟨rfl, rfl⟩) h
  | float =>
    cases hkind
    cases w <;> cases h
    exact convert_float (.inl hname)
  | double =>
    cases hkind
    cases w <;> cases h
    exact convert_float (.inr hname)
  | bytes =>
    rw [convert_bytes hname]
    exact toBytes_of_holds hkind h
  | string =>
    cases hkind
    cases w <;> cases h
    exact convert_string hname

/-! ## Coercion -/

theorem ofNode?_eq (hnode : Primitive.ofName? (Schema.typeName node) = some type) :
    ofNode? node = ofType? node type := by
  rw [ofNode?, hnode]
  rfl

theorem eq_text_of_holds {s : String} (h : kind.holds (.text s) = true) : kind = .text := by
  cases kind <;> first | rfl | cases h

theorem ofLogical_ne_text (hinteger : integer ≠ .text) :
    ofLogical integer logical ≠ .text := by
  unfold ofLogical
  split_ifs <;> first | exact hinteger | decide

/-- The data of a node are texts at string nodes only. -/
theorem typeName_of_text (hnode : Primitive.ofName? (Schema.typeName node) = some type)
    (hkind : ofType? node type = some .text) : Schema.typeName node = "string" := by
  cases type with
  | string => exact Primitive.eq_name hnode
  | int => exact absurd (Option.some.inj hkind) (ofLogical_ne_text (by decide))
  | long => exact absurd (Option.some.inj hkind) (ofLogical_ne_text (by decide))
  | bytes =>
    rw [ofType?] at hkind
    split at hkind
    · split at hkind
      · split at hkind <;> cases hkind
      · cases hkind
    · cases hkind
  | _ => cases hkind

/-- Nothing is read for a datum of the node: those that are texts stand at string nodes, where text is
kept. -/
theorem readValue_of_holds (hnode : Primitive.ofName? (Schema.typeName node) = some type)
    (hkind : ofType? node type = some kind) (h : kind.holds w = true) :
    readValue options node w = .ok w := by
  cases w with
  | text s =>
    rw [eq_text_of_holds h] at hkind
    exact readValue_string (typeName_of_text hnode hkind) options _
  | _ => rfl

/-- What coercion makes of a value at a primitive node is a datum of the node. -/
theorem holds_of_coerce (hnode : Primitive.ofName? (Schema.typeName node) = some type)
    (h : coerce options path node v = .ok w) :
    ∃ kind, ofNode? node = some kind ∧ kind.holds w = true := by
  obtain ⟨u, hu⟩ := coerce_ok h
  rw [ofNode?_eq hnode]
  exact holds_of_convert hnode hu

/-- Coercion leaves a datum of the node as it is. -/
theorem coerce_of_holds (hkind : ofNode? node = some kind) (h : kind.holds w = true)
    (options : Options) (path : String) : coerce options path node w = .ok w := by
  obtain ⟨type, hnode, hkind⟩ := Option.bind_eq_some_iff.mp hkind
  -- Data are interchange values, so nothing is refused or replaced before it is read.
  have hvalue := kind?_of_holds h
  have hforeign : w.isForeign = false := by cases w <;> first | rfl | cases hvalue
  have hreadable : readable w = w := by cases w <;> first | rfl | cases hvalue
  rw [coerce_readable hforeign, hreadable, readValue_of_holds hnode hkind h]
  exact convert_of_holds hnode hkind h

end DatumKind

/-- Whatever is made of a value at a primitive node is of the one kind that the node stands for, and
stays what it is when it is coerced again, at any path. -/
theorem coerce_conforms {options : Options} {path : String} {node : Json} {type : Primitive}
    {v w : Value} (hnode : Primitive.ofName? (Schema.typeName node) = some type)
    (h : coerce options path node v = .ok w) :
    ∃ kind, DatumKind.ofNode? node = some kind ∧ w.kind? = some kind.valueKind ∧
      kind.holds w = true ∧ ∀ path, coerce options path node w = .ok w := by
  obtain ⟨kind, hkind, hholds⟩ := DatumKind.holds_of_coerce hnode h
  exact ⟨kind, hkind, DatumKind.kind?_of_holds hholds, hholds,
    DatumKind.coerce_of_holds hkind hholds options⟩

/-- A zero with more places than decimal arithmetic gives to a number. -/
theorem coerce_leastExponent :
    let options := Options.standard "R" "" (List.replicate 16 7)
    let node : Json := .obj [("type", .str "bytes"), ("logicalType", .str "decimal"),
      ("precision", .int 1000030), ("scale", .int 1000027)]
    let w : Value := .decimal (.finite false 0 (-1000026))
    Primitive.ofName? (Schema.typeName node) = some .bytes ∧ scaleOf node = .ok 1000027 ∧
      coerce options "#" node (.decimal (.finite false 0 0)) = .ok w ∧
      ∀ negative c, w ≠ .decimal (.finite negative c (-1000027)) := by
  intro options node w
  refine ⟨rfl, rfl, rfl, fun negative c h => ?_⟩
  rw [Value.decimal.injEq, Decimal.finite.injEq] at h
  exact absurd h.2.2 (by decide)

/-- Text at a decimal node, read with a comma and given two places. -/
theorem coerce_conforms_readText :
    let options :=
      { Options.standard "R" "" (List.replicate 16 7) with
        parseStrings := true, decimalSeparator := ',' }
    let node : Json := .obj [("type", .str "bytes"), ("logicalType", .str "decimal"),
      ("precision", .int 6), ("scale", .int 2)]
    let w : Value := .decimal (.finite true 150 (-2))
    Primitive.ofName? (Schema.typeName node) = some .bytes ∧
      coerce options "/price" node (.text " -1,5") = .ok w ∧
      ∃ kind, DatumKind.ofNode? node = some kind ∧ w.kind? = some kind.valueKind ∧
        kind.holds w = true ∧ ∀ path, coerce options path node w = .ok w := by
  intro options node w
  have htrim : Text.trim " -1,5" = "-1,5" := by decide +kernel
  have hnumeral : (Text.Numeral.read? "-1.5".toList).bind Decimal.ofNumeral? =
      some (.finite true 15 (-1)) := by
    decide +kernel
  have hdecimal : readDecimal? "-1.5" = some (.decimal (.finite true 15 (-1))) := by
    rw [readDecimal?, hnumeral]
    rfl
  have hread : readText options (Schema.typeName node) (Schema.logicalName? node) " -1,5" =
      .ok (some (.decimal (.finite true 15 (-1)))) := by
    unfold readText
    simp only [htrim]
    exact congrArg Except.ok hdecimal
  have hcoerced : coerce options "/price" node (.text " -1,5") = .ok w := by
    rw [coerce_text rfl (by decide) hread]
    rfl
  exact ⟨rfl, hcoerced, coerce_conforms rfl hcoerced⟩

end AvroDocument
