import AvroDocument.Coercion
import AvroDocument.Proofs.Limits
import AvroDocument.Proofs.Stability

/-!
# AvroDocument.Proofs.ScalarStability

Scalars that stay what they are after they were written and read back once.

* `Value.instantHeld`: timestamps that the calendar can show in UTC.
* `Kept`: a datum at a primitive node, and the one that is read back for it, which the table of
  scalars leaves alone.
* `Renewed`: the same for decimals, which may be read back with more zeros at their end.
* `renewed_scalar`: whatever the table of scalars makes of a value and is written is renewed.
-/

namespace AvroDocument

open Coercion
open Binary (Stable unwrap wrap writeDatum timestampMicros wallMicros timestampOf?)
open Calendar (epochMicros microSpan epochDay daySpan dayMicros)

/-- Whether a value is no timestamp of an instant outside the years 1 to 9999. -/
def Value.instantHeld : Value → Bool
  | .timestamp t =>
    match t.instant? with
    | some n => 0 ≤ n && n < (microSpan : Int)
    | none => true
  | _ => true

/-- A datum at a primitive node and the one that is read back for it, which the table of scalars
leaves alone. -/
structure Kept (options : Options) (types : Declarations) (node : Json) (layout : Layout)
    (datum stored : Value) : Prop where
  stable : Stable types layout datum stored
  coerced : ∀ path, coerce options path node stored = .ok stored
  present : datum ≠ .null ∧ stored ≠ .null
  text : ∀ s, stored = .text s → Schema.typeName node = "string"

/-- A datum at a primitive node, the one that is read back for it, and what the table of scalars makes
of that, which it leaves alone and which is written as the datum is. -/
structure Renewed (options : Options) (types : Declarations) (node : Json) (layout : Layout)
    (datum stored view : Value) : Prop where
  stable : Stable types layout datum stored
  renewed : Stable types layout view stored
  shown : ∀ path, coerce options path node stored = .ok view
  again : ∀ path, coerce options path node view = .ok view
  present : stored ≠ .null ∧ view ≠ .null
  text : ∀ s, view = .text s → Schema.typeName node = "string"

variable {options : Options} {types : Declarations} {path : String} {node : Json}
  {type : Primitive} {meaning : Option Meaning} {v datum stored : Value} {fuel : Nat}
  {bytes : List UInt8}

theorem Kept.renewed {layout : Layout} (h : Kept options types node layout datum stored) :
    Renewed options types node layout datum stored stored :=
  ⟨h.stable, h.stable.again, h.coerced, h.coerced, ⟨h.present.2, h.present.2⟩, h.text⟩

/-- What is coerced is converted from what is read. -/
theorem coerce_ok (h : coerce options path node v = .ok datum) :
    ∃ w, convert options path node w = .ok datum := by
  unfold coerce at h
  split at h
  · cases h
  · cases h
  · simp only at h
    split at h
    · cases h
    · exact ⟨_, h⟩

/-! ## Integers -/

namespace Coercion

variable {typeName logical : String}

theorem toInteger_date (h : toInteger options path node typeName "date" v = .ok datum) :
    ∃ d, datum = .date d := by
  unfold toInteger at h
  rw [if_pos rfl] at h
  split at h
  · cases h
    exact ⟨_, rfl⟩
  · cases h

theorem toInteger_time (hl : Schema.timeNames.contains logical = true)
    (h : toInteger options path node typeName logical v = .ok datum) : ∃ t, datum = .time t := by
  have hdate : logical ≠ "date" := by
    rintro rfl
    exact absurd hl (by decide)
  unfold toInteger at h
  rw [if_neg hdate, if_pos hl] at h
  split at h
  · cases h
    exact ⟨_, rfl⟩
  · cases h

theorem toInteger_keepsTime (hl : Schema.timeNames.contains logical = true) (t : TimeOfDay) :
    toInteger options path node typeName logical (.time t) = .ok (.time t) := by
  have hdate : logical ≠ "date" := by
    rintro rfl
    exact absurd hl (by decide)
  unfold toInteger
  rw [if_neg hdate, if_pos hl]

theorem timestampName (hl : Schema.timestampNames.contains logical = true) :
    logical ≠ "date" ∧ ¬ Schema.timeNames.contains logical = true := by
  simp only [Schema.timestampNames, List.contains_eq_mem, decide_eq_true_eq, List.mem_cons,
    List.not_mem_nil, or_false] at hl
  obtain rfl | rfl := hl <;> decide

theorem toInteger_timestamp (hl : Schema.timestampNames.contains logical = true)
    (h : toInteger options path node typeName logical v = .ok datum) :
    ∃ t, datum = .timestamp t := by
  obtain ⟨hdate, htime⟩ := timestampName hl
  unfold toInteger at h
  rw [if_neg hdate, if_neg htime, if_pos hl] at h
  split at h
  · cases h
    exact ⟨_, rfl⟩
  · cases h

theorem toInteger_keepsTimestamp (hl : Schema.timestampNames.contains logical = true)
    {t : Timestamp} (ht : t.isAware = true) :
    toInteger options path node typeName logical (.timestamp t) = .ok (.timestamp t) := by
  obtain ⟨hdate, htime⟩ := timestampName hl
  unfold toInteger
  rw [if_neg hdate, if_neg htime, if_pos hl]
  simp only [ht, if_true]

theorem localTimestampName (hl : Schema.localTimestampNames.contains logical = true) :
    logical ≠ "date" ∧ ¬ Schema.timeNames.contains logical = true ∧
      ¬ Schema.timestampNames.contains logical = true := by
  simp only [Schema.localTimestampNames, List.contains_eq_mem, decide_eq_true_eq, List.mem_cons,
    List.not_mem_nil, or_false] at hl
  obtain rfl | rfl := hl <;> decide

theorem toInteger_local (hl : Schema.localTimestampNames.contains logical = true)
    (h : toInteger options path node typeName logical v = .ok datum) :
    ∃ t, datum = .timestamp t := by
  obtain ⟨hdate, htime, hinstant⟩ := localTimestampName hl
  unfold toInteger at h
  rw [if_neg hdate, if_neg htime, if_neg hinstant, if_pos hl] at h
  split at h
  · split at h
    · cases h
      exact ⟨_, rfl⟩
    · split at h
      · cases h
        exact ⟨_, rfl⟩
      · cases h
  · cases h

theorem toInteger_keepsLocal (hl : Schema.localTimestampNames.contains logical = true)
    {t : Timestamp} (ht : t.offset = none) :
    toInteger options path node typeName logical (.timestamp t) = .ok (.timestamp t) := by
  obtain ⟨hdate, htime, hinstant⟩ := localTimestampName hl
  unfold toInteger
  rw [if_neg hdate, if_neg htime, if_neg hinstant, if_pos hl]
  simp only [ht]

/-- The data at integer nodes: dates, times, timestamps, and integers, which are kept. -/
theorem toInteger_cases (h : toInteger options path node typeName logical v = .ok datum) :
    (∃ d, datum = .date d) ∨ (∃ t, datum = .time t) ∨ (∃ t, datum = .timestamp t) ∨
      ∃ n, datum = .int n ∧
        ∀ path, toInteger options path node typeName logical (.int n) = .ok (.int n) := by
  by_cases hdate : logical = "date"
  · subst hdate
    exact .inl (toInteger_date h)
  by_cases htime : Schema.timeNames.contains logical = true
  · exact .inr (.inl (toInteger_time htime h))
  by_cases hinstant : Schema.timestampNames.contains logical = true
  · exact .inr (.inr (.inl (toInteger_timestamp hinstant h)))
  by_cases hlocal : Schema.localTimestampNames.contains logical = true
  · exact .inr (.inr (.inl (toInteger_local hlocal h)))
  unfold toInteger at h ⊢
  rw [if_neg hdate, if_neg htime, if_neg hinstant, if_neg hlocal] at h
  split at h
  · rename_i n
    simp only at h
    have hfits : (if typeName = "int" then fitsInt32 n else fitsInt64 n) = true := by
      by_contra hnot
      rw [if_neg hnot] at h
      split at h <;> cases h
    rw [if_pos hfits] at h
    cases h
    refine .inr (.inr (.inr ⟨n, rfl, fun path => ?_⟩))
    rw [if_neg hdate, if_neg htime, if_neg hinstant, if_neg hlocal]
    simp only [hfits, if_true]
  · cases h

end Coercion

theorem convert_integer (h : Schema.typeName node = "int" ∨ Schema.typeName node = "long") :
    convert options path node v =
      toInteger options path node (Schema.typeName node) ((Schema.logicalName? node).getD "") v := by
  unfold convert
  simp only
  obtain h | h := h <;>
  · rw [h]
    rfl

/-- A datum with the meaning of an integer. -/
theorem stable_integer (htype : type = .int ∨ type = .long) {k : Int}
    (hu : unwrap meaning datum = .ok (.int k)) (hu' : unwrap meaning stored = .ok (.int k))
    (hwrap : wrap meaning (.int k) = some stored)
    (hwrite : writeDatum types fuel (.primitive type meaning) datum = .ok bytes)
    (hsize : stored.nodeCount = datum.nodeCount) :
    Stable types (.primitive type meaning) datum stored := by
  have hplain : Binary.writePlain type (.int k) = .ok (Varint.writeInt k) := by
    rw [writeDatum, hu] at hwrite
    obtain rfl | rfl := htype <;>
    · simp only [Binary.writePlain, Binary.whole?] at hwrite ⊢
      split at hwrite
      · rename_i hfits
        rw [if_pos hfits]
      · cases hwrite
  have hread (rest : List UInt8) :
      Binary.readPlain type (Varint.writeInt k ++ rest) = .ok (.int k, rest) := by
    obtain rfl | rfl := htype <;>
    · simp only [Binary.readPlain, Binary.readInt_writeInt]
      rfl
  exact Binary.stable_primitive hu hu' rfl hplain hplain hread hwrap hsize

/-- The timestamp of a number of microseconds that the calendar holds. -/
theorem timestampOf?_spec {micros : Int} (hlow : 0 ≤ micros + epochMicros)
    (hhigh : micros + epochMicros < microSpan) (offset : Option Offset) :
    ∃ t : Timestamp, timestampOf? micros offset = some (.timestamp t) ∧ t.offset = offset ∧
      wallMicros t = micros := by
  refine ⟨⟨(micros + epochMicros).toNat, by omega, offset⟩, ?_, rfl, ?_⟩
  · rw [timestampOf?, Timestamp.ofWall?, dif_pos ⟨hlow, by omega⟩]
    rfl
  · show (((micros + epochMicros).toNat : Nat) : Int) - epochMicros = micros
    omega

theorem timestampMicros_utc {t : Timestamp} (h : t.offset = some Offset.utc) :
    timestampMicros t = wallMicros t := by
  rw [timestampMicros, wallMicros, h]
  exact congrArg (· - (epochMicros : Int)) (Int.sub_zero _)

theorem timestampMicros_held {t : Timestamp} (h : (Value.timestamp t).instantHeld = true) :
    0 ≤ timestampMicros t + epochMicros ∧ timestampMicros t + epochMicros < microSpan := by
  obtain ⟨wall, bounded, offset⟩ := t
  cases offset with
  | none =>
    simp only [timestampMicros, Timestamp.instantAt, Option.getD_none,
      show Offset.utc.micros = 0 from rfl]
    omega
  | some o =>
    simp only [Value.instantHeld, Timestamp.instant?, Option.map_some, Bool.and_eq_true,
      decide_eq_true_eq] at h
    simp only [timestampMicros, Option.getD_some]
    omega

theorem wallMicros_held (t : Timestamp) :
    0 ≤ wallMicros t + epochMicros ∧ wallMicros t + epochMicros < microSpan := by
  have hbounded := t.bounded
  unfold wallMicros
  omega

/-- Thousands of microseconds are in the calendar as well, because 1970 is a whole number of them
behind its start. -/
theorem millis_held {micros : Int} (hlow : 0 ≤ micros + epochMicros)
    (hhigh : micros + epochMicros < microSpan) :
    0 ≤ micros / 1000 * 1000 + epochMicros ∧ micros / 1000 * 1000 + epochMicros < microSpan := by
  have hepoch : (epochMicros : Int) = 62135596800000000 := rfl
  omega

/-! ## Integers with a meaning and without -/

section integer

variable {logical : String}

theorem kept_date (htype : Schema.typeName node = "int")
    (hl : Schema.logicalName? node = some "date") (h : coerce options path node v = .ok datum)
    (hwrite : writeDatum types fuel (.primitive .int (some .date)) datum = .ok bytes) :
    ∃ stored, Kept options types node (.primitive .int (some .date)) datum stored := by
  obtain ⟨w, hw⟩ := coerce_ok h
  rw [convert_integer (.inl htype), hl] at hw
  obtain ⟨d, rfl⟩ := toInteger_date hw
  have hwrap : wrap (some .date) (.int ((d.day : Int) - epochDay)) = some (.date d) := by
    show (Date.ofDay? ((d.day : Int) - epochDay + epochDay)).map Value.date = _
    rw [Int.sub_add_cancel, Date.ofDay?, dif_pos ⟨Int.natCast_nonneg _, d.bounded⟩]
    rfl
  refine ⟨.date d, stable_integer (.inl rfl) rfl rfl hwrap hwrite rfl, fun path => ?_,
    ⟨by simp, by simp⟩, by simp⟩
  show convert options path node (.date d) = _
  rw [convert_integer (.inl htype), hl]
  unfold toInteger
  exact if_pos rfl

theorem kept_time (htype : type = .int ∧ Schema.typeName node = "int" ∨
      type = .long ∧ Schema.typeName node = "long")
    (hl : Schema.logicalName? node = some logical)
    (hlogical : Schema.timeNames.contains logical = true)
    (hmeaning : meaning = some .timeMillis ∨ meaning = some .timeMicros)
    (h : coerce options path node v = .ok datum)
    (hwrite : writeDatum types fuel (.primitive type meaning) datum = .ok bytes) :
    ∃ stored, Kept options types node (.primitive type meaning) datum stored := by
  have hname : Schema.typeName node = "int" ∨ Schema.typeName node = "long" :=
    htype.imp And.right And.right
  obtain ⟨w, hw⟩ := coerce_ok h
  rw [convert_integer hname, hl] at hw
  obtain ⟨t, rfl⟩ := toInteger_time hlogical hw
  obtain ⟨k, s, hu, hu', hwrap⟩ : ∃ k s, unwrap meaning (.time t) = .ok (.int k) ∧
      unwrap meaning (.time s) = .ok (.int k) ∧ wrap meaning (.int k) = some (.time s) := by
    have hbounded := t.bounded
    obtain rfl | rfl := hmeaning
    · have hless : t.micros / 1000 * 1000 < dayMicros := by omega
      refine ⟨_, ⟨t.micros / 1000 * 1000, hless, none⟩, rfl, ?_, ?_⟩
      · show Except.ok (Value.int ((t.micros / 1000 * 1000 / 1000 : Nat) : Int)) = _
        rw [Nat.mul_div_cancel _ (by decide)]
      · show (TimeOfDay.ofMicros? (((t.micros / 1000 : Nat) : Int) * 1000) none).map Value.time = _
        rw [TimeOfDay.ofMicros?, dif_pos ⟨by omega, by omega⟩, Option.map_some]
        congr 3
    · refine ⟨_, ⟨t.micros, hbounded, none⟩, rfl, rfl, ?_⟩
      show (TimeOfDay.ofMicros? (t.micros : Int) none).map Value.time = _
      rw [TimeOfDay.ofMicros?, dif_pos ⟨Int.natCast_nonneg _, hbounded⟩]
      rfl
  refine ⟨.time s, stable_integer (htype.imp And.left And.left) hu hu' hwrap hwrite rfl,
    fun path => ?_, ⟨by simp, by simp⟩, by simp⟩
  show convert options path node (.time s) = _
  rw [convert_integer hname, hl]
  exact toInteger_keepsTime hlogical s

theorem kept_timestamp (htype : Schema.typeName node = "long")
    (hl : Schema.logicalName? node = some logical)
    (hlogical : Schema.timestampNames.contains logical = true)
    (hmeaning : meaning = some .timestampMillis ∨ meaning = some .timestampMicros)
    (h : coerce options path node v = .ok datum) (hheld : datum.instantHeld = true)
    (hwrite : writeDatum types fuel (.primitive .long meaning) datum = .ok bytes) :
    ∃ stored, Kept options types node (.primitive .long meaning) datum stored := by
  obtain ⟨w, hw⟩ := coerce_ok h
  rw [convert_integer (.inr htype), hl] at hw
  obtain ⟨t, rfl⟩ := toInteger_timestamp hlogical hw
  obtain ⟨hlow, hhigh⟩ := timestampMicros_held hheld
  obtain ⟨k, s, hu, hu', hwrap, hoffset⟩ : ∃ k, ∃ s : Timestamp,
      unwrap meaning (.timestamp t) = .ok (.int k) ∧
      unwrap meaning (.timestamp s) = .ok (.int k) ∧
      wrap meaning (.int k) = some (.timestamp s) ∧ s.offset = some Offset.utc := by
    obtain rfl | rfl := hmeaning
    · obtain ⟨hlow, hhigh⟩ := millis_held hlow hhigh
      obtain ⟨s, hs, hoffset, hwall⟩ := timestampOf?_spec hlow hhigh (some Offset.utc)
      refine ⟨timestampMicros t / 1000, s, rfl, ?_, hs, hoffset⟩
      rw [unwrap, timestampMicros_utc hoffset, hwall, Int.mul_ediv_cancel _ (by decide)]
    · obtain ⟨s, hs, hoffset, hwall⟩ := timestampOf?_spec hlow hhigh (some Offset.utc)
      refine ⟨timestampMicros t, s, rfl, ?_, hs, hoffset⟩
      rw [unwrap, timestampMicros_utc hoffset, hwall]
  refine ⟨.timestamp s, stable_integer (.inr rfl) hu hu' hwrap hwrite rfl, fun path => ?_,
    ⟨by simp, by simp⟩, by simp⟩
  show convert options path node (.timestamp s) = _
  rw [convert_integer (.inr htype), hl]
  exact toInteger_keepsTimestamp hlogical (by rw [Timestamp.isAware, hoffset]; rfl)

theorem kept_local (htype : Schema.typeName node = "long")
    (hl : Schema.logicalName? node = some logical)
    (hlogical : Schema.localTimestampNames.contains logical = true)
    (hmeaning : meaning = some .localTimestampMillis ∨ meaning = some .localTimestampMicros)
    (h : coerce options path node v = .ok datum)
    (hwrite : writeDatum types fuel (.primitive .long meaning) datum = .ok bytes) :
    ∃ stored, Kept options types node (.primitive .long meaning) datum stored := by
  obtain ⟨w, hw⟩ := coerce_ok h
  rw [convert_integer (.inr htype), hl] at hw
  obtain ⟨t, rfl⟩ := toInteger_local hlogical hw
  obtain ⟨hlow, hhigh⟩ := wallMicros_held t
  obtain ⟨k, s, hu, hu', hwrap, hoffset⟩ : ∃ k, ∃ s : Timestamp,
      unwrap meaning (.timestamp t) = .ok (.int k) ∧
      unwrap meaning (.timestamp s) = .ok (.int k) ∧
      wrap meaning (.int k) = some (.timestamp s) ∧ s.offset = none := by
    obtain rfl | rfl := hmeaning
    · obtain ⟨hlow, hhigh⟩ := millis_held hlow hhigh
      obtain ⟨s, hs, hoffset, hwall⟩ := timestampOf?_spec hlow hhigh none
      refine ⟨wallMicros t / 1000, s, rfl, ?_, hs, hoffset⟩
      rw [unwrap, hwall, Int.mul_ediv_cancel _ (by decide)]
    · obtain ⟨s, hs, hoffset, hwall⟩ := timestampOf?_spec hlow hhigh none
      refine ⟨wallMicros t, s, rfl, ?_, hs, hoffset⟩
      rw [unwrap, hwall]
  refine ⟨.timestamp s, stable_integer (.inr rfl) hu hu' hwrap hwrite rfl, fun path => ?_,
    ⟨by simp, by simp⟩, by simp⟩
  show convert options path node (.timestamp s) = _
  rw [convert_integer (.inr htype), hl]
  exact toInteger_keepsLocal hlogical hoffset

/-- Integers without a meaning; what stands for a date or a time at such a node is not written. -/
theorem kept_plain (htype : type = .int ∧ Schema.typeName node = "int" ∨
      type = .long ∧ Schema.typeName node = "long")
    (h : coerce options path node v = .ok datum)
    (hwrite : writeDatum types fuel (.primitive type none) datum = .ok bytes) :
    ∃ stored, Kept options types node (.primitive type none) datum stored := by
  have hname : Schema.typeName node = "int" ∨ Schema.typeName node = "long" :=
    htype.imp And.right And.right
  obtain ⟨w, hw⟩ := coerce_ok h
  rw [convert_integer hname] at hw
  obtain ⟨_, hn⟩ : ∃ n, Binary.whole? datum = some n := by
    rw [writeDatum, show unwrap none datum = .ok datum from rfl] at hwrite
    cases hwhole : Binary.whole? datum with
    | some n => exact ⟨n, rfl⟩
    | none =>
      obtain ⟨rfl, -⟩ | ⟨rfl, -⟩ := htype <;>
      · simp only [Binary.writePlain, hwhole] at hwrite
        cases hwrite
  obtain ⟨_, rfl⟩ | ⟨_, rfl⟩ | ⟨_, rfl⟩ | ⟨n, rfl, hkeeps⟩ := toInteger_cases hw
  · cases hn
  · cases hn
  · cases hn
  refine ⟨.int n, stable_integer (htype.imp And.left And.left) rfl rfl rfl hwrite rfl,
    fun path => ?_, ⟨by simp, by simp⟩, by simp⟩
  show convert options path node (.int n) = _
  rw [convert_integer hname]
  exact hkeeps path

end integer

/-! ## Booleans, texts and floating point numbers -/

theorem convert_boolean (htype : Schema.typeName node = "boolean") (w : Value) (path : String) :
    convert options path node w =
      match w with
      | .bool b => .ok (.bool b)
      | w => refuse path node w := by
  unfold convert
  simp only
  rw [htype]
  rfl

theorem kept_boolean (htype : Schema.typeName node = "boolean")
    (h : coerce options path node v = .ok datum) :
    ∃ stored, Kept options types node (.primitive .boolean none) datum stored := by
  obtain ⟨w, hw⟩ := coerce_ok h
  rw [convert_boolean htype] at hw
  split at hw
  · rename_i b
    cases hw
    refine ⟨.bool b, Binary.stable_primitive rfl rfl rfl rfl rfl (fun rest => ?_) rfl rfl,
      fun path => convert_boolean htype (.bool b) path, ⟨by simp, by simp⟩, by simp⟩
    cases b <;> rfl
  · cases hw

theorem kept_string (htype : Schema.typeName node = "string")
    (h : coerce options path node v = .ok datum) :
    ∃ stored, Kept options types node (.primitive .string none) datum stored := by
  have hconvert (path : String) (w : Value) : convert options path node w = Coercion.toString w := by
    unfold convert
    simp only
    rw [htype]
    rfl
  obtain ⟨w, hw⟩ := coerce_ok h
  rw [hconvert, Coercion.toString] at hw
  split at hw
  · rename_i s _
    cases hw
    refine ⟨.text s, Binary.stable_primitive rfl rfl rfl rfl rfl (fun rest => ?_) rfl rfl,
      fun path => ?_, ⟨by simp, by simp⟩, fun _ _ => htype⟩
    · rw [Binary.readPlain, Binary.readText_writeText]
      rfl
    · have hread : readValue options node (.text s) = .ok (.text s) := by
        rw [readValue, htype, if_neg]
        simp
      unfold coerce
      simp only [hread, hconvert]
      rfl
  · cases hw

/-- What is written at a floating point node is a floating point number. -/
theorem toFloat_ok (h : toFloat path node v = .ok datum) : ∃ x, datum = .float x := by
  unfold toFloat at h
  split at h
  · cases h
    exact ⟨_, rfl⟩
  · split at h <;> cases h
    exact ⟨_, rfl⟩
  · split at h <;> cases h
    exact ⟨_, rfl⟩
  · cases h

theorem convert_float (h : Schema.typeName node = "float" ∨ Schema.typeName node = "double") :
    convert options path node v = toFloat path node v := by
  unfold convert
  simp only
  obtain h | h := h <;>
  · rw [h]
    rfl

theorem Binary.readPlain_float (x : UInt32) (rest : List UInt8) :
    readPlain .float (Word.littleEndian 4 x.toNat ++ rest) =
      .ok (.float (.ofBinary32 x), rest) := by
  have hbits : UInt32.ofNat (Word.ofLittleEndian (Word.littleEndian 4 x.toNat)) = x := by
    rw [Word.ofLittleEndian_littleEndian, Nat.mod_eq_of_lt (show x.toNat < 256 ^ 4 from x.toNat_lt),
      UInt32.ofNat_toNat]
  rw [readPlain, takeBytes_littleEndian]
  simp only [Except.map, hbits]

theorem Binary.readPlain_double (x : Binary64) (rest : List UInt8) :
    readPlain .double (Word.littleEndian 8 x.bits.toNat ++ rest) = .ok (.float x, rest) := by
  have hbits : UInt64.ofNat (Word.ofLittleEndian (Word.littleEndian 8 x.bits.toNat)) = x.bits := by
    rw [Word.ofLittleEndian_littleEndian,
      Nat.mod_eq_of_lt (show x.bits.toNat < 256 ^ 8 from x.bits.toNat_lt), UInt64.ofNat_toNat]
  rw [readPlain, takeBytes_littleEndian]
  simp only [Except.map, hbits]

theorem kept_float (htype : Schema.typeName node = "float")
    (h : coerce options path node v = .ok datum) :
    ∃ stored, Kept options types node (.primitive .float none) datum stored := by
  obtain ⟨w, hw⟩ := coerce_ok h
  rw [convert_float (.inl htype)] at hw
  obtain ⟨x, rfl⟩ := toFloat_ok hw
  have hwritten : Binary.writePlain .float (.float (.ofBinary32 x.toBinary32)) =
      .ok (Word.littleEndian 4 x.toBinary32.toNat) := by
    show Except.ok (Word.littleEndian 4 (Binary64.ofBinary32 x.toBinary32).toBinary32.toNat) = _
    rw [Binary64.toBinary32_ofBinary32]
  refine ⟨.float (.ofBinary32 x.toBinary32),
    Binary.stable_primitive rfl rfl rfl rfl hwritten (fun rest => ?_) rfl rfl,
    fun path => convert_float (.inl htype), ⟨by simp, by simp⟩, by simp⟩
  exact Binary.readPlain_float x.toBinary32 rest

theorem kept_double (htype : Schema.typeName node = "double")
    (h : coerce options path node v = .ok datum) :
    ∃ stored, Kept options types node (.primitive .double none) datum stored := by
  obtain ⟨w, hw⟩ := coerce_ok h
  rw [convert_float (.inr htype)] at hw
  obtain ⟨x, rfl⟩ := toFloat_ok hw
  exact ⟨.float x, Binary.stable_primitive rfl rfl rfl rfl rfl (Binary.readPlain_double x) rfl rfl,
    fun path => convert_float (.inr htype), ⟨by simp, by simp⟩, by simp⟩

/-! ## Bytes -/

theorem convert_bytes (htype : Schema.typeName node = "bytes") :
    convert options path node v =
      toBytes path node ((Schema.logicalName? node).getD "") v := by
  unfold convert
  simp only
  rw [htype]
  rfl

theorem kept_bytes (htype : Schema.typeName node = "bytes")
    (hl : (Schema.logicalName? node).getD "" ≠ "decimal")
    (h : coerce options path node v = .ok datum) :
    ∃ stored, Kept options types node (.primitive .bytes none) datum stored := by
  obtain ⟨w, hw⟩ := coerce_ok h
  rw [convert_bytes htype] at hw
  unfold toBytes at hw
  rw [if_neg hl] at hw
  obtain ⟨bs, rfl⟩ : ∃ bs, datum = .bytes bs := by
    split at hw <;> cases hw <;> exact ⟨_, rfl⟩
  refine ⟨.bytes bs, Binary.stable_primitive rfl rfl rfl rfl rfl (fun rest => ?_) rfl rfl,
    fun path => ?_, ⟨by simp, by simp⟩, by simp⟩
  · rw [Binary.readPlain, Binary.readSized_writeBytes]
    rfl
  · show convert options path node (.bytes bs) = _
    rw [convert_bytes htype]
    unfold toBytes
    rw [if_neg hl]

/-! ## Decimals -/

section decimal

open Binary64 (digitCount digitCount_mul_ten_pow one_le_digitCount)

variable {scale target : Int} {c : Nat} {negative : Bool}

/-- The scales that decimal arithmetic has an exponent for. -/
theorem targetOf_eq_ok : targetOf scale = .ok target ↔
    (scale.natAbs ≤ Decimal.shiftLimit ∧ -scale ≤ Decimal.workingExponent) ∧
      target = max (-scale) Decimal.workingFloor := by
  unfold targetOf
  by_cases hfar : Decimal.shiftLimit < scale.natAbs
  · rw [if_pos hfar]
    exact ⟨nofun, fun h => absurd h.1.1 (Nat.not_le.mpr hfar)⟩
  rw [if_neg hfar]
  by_cases hlarge : Decimal.workingExponent < -scale
  · rw [if_pos hlarge]
    exact ⟨nofun, fun h => absurd h.1.2 (Int.not_le.mpr hlarge)⟩
  rw [if_neg hlarge]
  simp only [Except.ok.injEq, Nat.le_of_not_lt hfar, Int.not_lt.mp hlarge, and_self, true_and]
  exact eq_comm

theorem targetOf_le (h : targetOf scale = .ok target) : target ≤ Decimal.workingExponent := by
  obtain ⟨⟨-, hsmall⟩, rfl⟩ := targetOf_eq_ok.mp h
  exact max_le hsmall (by decide)

/-- A finite number is given the scale of a node when it keeps its value there. -/
theorem scaled_finite {e : Int} :
    scaled path node v (.finite negative c e) = .ok datum ↔
      ∃ (scale target : Int) (n : Nat), scaleOf node = .ok scale ∧ targetOf scale = .ok target ∧
        (n : ℚ) = c * 10 ^ (e - target) ∧ n < 10 ^ Decimal.digitsAt target ∧
        datum = .decimal (.finite negative n target) := by
  constructor
  · intro h
    unfold scaled at h
    split at h
    · cases h
    rename_i scale hscale
    simp only at h
    split at h
    · cases h
    rename_i target ht
    split at h
    · cases h
    rename_i r hr
    split at h
    · rename_i hexact
      cases h
      obtain ⟨n, exact⟩ := r
      obtain rfl : exact = true := hexact
      obtain ⟨hn, hroom⟩ := (Decimal.quantize?_exact_iff (targetOf_le ht)).mp hr
      exact ⟨scale, target, n, hscale, ht, hn, hroom, rfl⟩
    · cases h
  · rintro ⟨scale, target, n, hscale, ht, hn, hroom, rfl⟩
    have hr := (Decimal.quantize?_exact_iff (targetOf_le ht)).mpr ⟨hn, hroom⟩
    unfold scaled
    simp only [hscale, ht, hr, if_true]

/-- What is given the scale of a node has the exponent that stands for it. -/
theorem scaled_ok {number : Decimal} (h : scaled path node v number = .ok datum) :
    ∃ scale target negative c, scaleOf node = .ok scale ∧ targetOf scale = .ok target ∧
      c < 10 ^ Decimal.digitsAt target ∧ datum = .decimal (.finite negative c target) := by
  cases number with
  | finite negative c e =>
    obtain ⟨scale, target, n, hscale, ht, -, hroom, hdatum⟩ := scaled_finite.mp h
    exact ⟨scale, target, negative, n, hscale, ht, hroom, hdatum⟩
  | infinite negative =>
    unfold scaled at h
    split at h
    · cases h
    · simp only at h
      split at h <;> cases h
  | nan negative signaling payload =>
    unfold scaled at h
    split at h
    · cases h
    · simp only at h
      split at h <;> cases signaling <;> cases h

/-- Numbers at a decimal node are given its scale. -/
theorem convert_decimal {number : Decimal} (hkind : Schema.typeName node = "bytes")
    (hlogical : Schema.logicalName? node = some "decimal")
    (hnumber : Coercion.decimalOf? v = some number) :
    convert options path node v = scaled path node v number := by
  rw [convert_bytes hkind, hlogical, Option.getD_some]
  unfold toBytes
  rw [if_pos rfl, hnumber]

theorem coerce_decimal (options : Options) (path : String) {number : Decimal}
    (hkind : Schema.typeName node = "bytes") (hlogical : Schema.logicalName? node = some "decimal")
    (hnumber : Coercion.decimalOf? v = some number) :
    coerce options path node v = scaled path node v number := by
  have hconvert : convert options path node v = _ := convert_decimal hkind hlogical hnumber
  cases v with
  | int | decimal | float => exact hconvert
  | _ => cases hnumber

theorem coerce_decimal_ok (htype : Schema.typeName node = "bytes")
    (hl : Schema.logicalName? node = some "decimal") (h : coerce options path node v = .ok datum) :
    ∃ scale target negative c, scaleOf node = .ok scale ∧ targetOf scale = .ok target ∧
      c < 10 ^ Decimal.digitsAt target ∧ datum = .decimal (.finite negative c target) := by
  obtain ⟨w, hw⟩ := coerce_ok h
  rw [convert_bytes htype, hl, Option.getD_some] at hw
  unfold toBytes at hw
  rw [if_pos rfl] at hw
  split at hw
  · exact scaled_ok hw
  · cases hw

theorem scale_decimalType {ms : List (String × Json)} (h : scaleOf (.obj ms) = .ok scale) :
    (Layout.decimalType ms).scale = some scale := by
  unfold scaleOf at h
  unfold Layout.decimalType
  simp only [Json.getD, Json.get?, Json.members] at h ⊢
  cases hlookup : lookup? "scale" ms with
  | none =>
    rw [hlookup] at h
    cases h
    rfl
  | some s =>
    rw [hlookup, Option.getD_some] at h
    simp only
    split at h
    · rename_i n hn
      cases h
      exact hn
    · cases h

/-- A coefficient is written at the scale of its type, up to its sign. -/
theorem unscaled_iff {type : DecimalType} (hscale : type.scale = some scale) {e n : Int} :
    Binary.unscaled type negative c e = .ok n ↔
      (∃ precision, type.precision = some precision ∧ digitCount c ≤ precision) ∧
        0 ≤ e + scale ∧
          n = if negative then -((c * 10 ^ (e + scale).toNat : Nat) : Int)
            else (c * 10 ^ (e + scale).toNat : Nat) := by
  unfold Binary.unscaled
  cases type.precision with
  | none => simp
  | some precision =>
    simp only [hscale, Bool.or_eq_true, decide_eq_true_eq, Option.some.injEq, exists_eq_left']
    split
    · rename_i hmore
      simp only [reduceCtorEq, false_iff, not_and]
      omega
    · rename_i hroom
      rw [not_or, Nat.not_lt, Int.not_lt] at hroom
      simp only [Except.ok.injEq, hroom.1, hroom.2, true_and]
      exact eq_comm

/-- A coefficient with no more digits than its type has is read as its number, with zeros cut from its
end where there are more digits. -/
theorem decimalOf?_unscaled {type : DecimalType} (hscale : type.scale = some scale)
    {precision k : Nat} (hprecision : type.precision = some precision) {n : Int}
    (hn : n.natAbs = c * 10 ^ k) (hroom : digitCount c ≤ precision) :
    ∃ zeros dropped, k = zeros + dropped ∧ digitCount (c * 10 ^ zeros) ≤ precision ∧
      Binary.decimalOf? type n =
        some (.decimal (.finite (decide (n < 0)) (c * 10 ^ zeros) (dropped - scale))) := by
  have hone := one_le_digitCount c
  obtain ⟨zeros, hzeros, hdigits⟩ : ∃ zeros, k = zeros + (digitCount (c * 10 ^ k) - precision) ∧
      digitCount (c * 10 ^ zeros) ≤ precision := by
    obtain rfl | hc := Nat.eq_zero_or_pos c
    · exact ⟨k, by rw [Nat.zero_mul]; omega, by rwa [Nat.zero_mul]⟩
    · refine ⟨k - (digitCount c + k - precision), ?_, ?_⟩
      · rw [digitCount_mul_ten_pow hc]
        omega
      · rw [digitCount_mul_ten_pow hc]
        omega
  refine ⟨zeros, _, hzeros, hdigits, ?_⟩
  have hnearest : Format.nearest n.natAbs (10 ^ (digitCount n.natAbs - precision)) =
      c * 10 ^ zeros := by
    rw [hn]
    generalize digitCount (c * 10 ^ k) - precision = dropped at hzeros
    have hpower : c * 10 ^ k = c * 10 ^ zeros * 10 ^ dropped := by
      rw [hzeros, Nat.pow_add, Nat.mul_assoc]
    have hpos : 0 < 10 ^ dropped := Nat.pow_pos (by decide)
    exact Format.nearest_eq hpos (by omega) (by omega) (by omega)
  unfold Binary.decimalOf?
  simp only [hprecision, hscale, hnearest, if_neg (show precision ≠ 0 by omega),
    if_neg (Nat.not_lt.mpr hdigits)]
  rw [hn]

theorem renewed_decimal {ms : List (String × Json)} (htype : Schema.typeName (.obj ms) = "bytes")
    (hl : Schema.logicalName? (.obj ms) = some "decimal")
    (h : coerce options path (.obj ms) v = .ok datum)
    (hwrite : writeDatum types fuel
      (.primitive .bytes (some (.decimal (Layout.decimalType ms)))) datum = .ok bytes) :
    ∃ stored view, Renewed options types (.obj ms)
      (.primitive .bytes (some (.decimal (Layout.decimalType ms)))) datum stored view := by
  obtain ⟨scale, target, negative, c, hscale, ht, hroom, rfl⟩ := coerce_decimal_ok htype hl h
  have htypeScale := scale_decimalType hscale
  obtain ⟨n, hn⟩ : ∃ n, Binary.unscaled (Layout.decimalType ms) negative c target = .ok n := by
    rw [writeDatum, unwrap] at hwrite
    cases hunscaled : Binary.unscaled (Layout.decimalType ms) negative c target with
    | error e =>
      rw [hunscaled] at hwrite
      cases hwrite
    | ok n => exact ⟨n, rfl⟩
  obtain ⟨⟨precision, hprecision, hdigits⟩, hshift, hvalue⟩ := (unscaled_iff htypeScale).mp hn
  obtain ⟨k, hk⟩ := Int.eq_ofNat_of_zero_le hshift
  rw [hk, Int.toNat_natCast] at hvalue
  have habs : n.natAbs = c * 10 ^ k := by
    rw [hvalue]
    split <;> omega
  obtain ⟨zeros, dropped, hzeros, hdigits', hread⟩ :=
    decimalOf?_unscaled htypeScale hprecision habs hdigits
  -- whatever has the value of the datum is written as it is, up to the sign of zero
  have hunwrap {c' : Nat} {e : Int} (hdigits : digitCount c' ≤ precision) {shift : Nat}
      (hshift : e + scale = shift) (habs : n.natAbs = c' * 10 ^ shift) :
      unwrap (some (.decimal (Layout.decimalType ms)))
        (.decimal (.finite (decide (n < 0)) c' e)) =
          .ok (.bytes (Word.signedBytes (Word.signedSize n) n)) := by
    have hn' : Binary.unscaled (Layout.decimalType ms) (decide (n < 0)) c' e = .ok n := by
      refine (unscaled_iff htypeScale).mpr ⟨⟨precision, hprecision, hdigits⟩, by omega, ?_⟩
      rw [hshift, Int.toNat_natCast, ← habs]
      by_cases hneg : n < 0
      · rw [decide_eq_true hneg, if_pos rfl]
        omega
      · rw [decide_eq_false hneg, if_neg Bool.false_ne_true]
        omega
    rw [unwrap, hn']
  have hstored := hunwrap hdigits' (show (dropped : Int) - scale + scale = dropped by omega)
    (by rw [habs, hzeros, Nat.pow_add, Nat.mul_assoc])
  have hstable {sign : Bool}
      (hdatum : unwrap (some (.decimal (Layout.decimalType ms)))
        (.decimal (.finite sign c target)) =
          .ok (.bytes (Word.signedBytes (Word.signedSize n) n))) :
      Stable types (.primitive .bytes (some (.decimal (Layout.decimalType ms))))
        (.decimal (.finite sign c target))
        (.decimal (.finite (decide (n < 0)) (c * 10 ^ zeros) (dropped - scale))) := by
    refine Binary.stable_primitive hdatum hstored rfl rfl rfl (fun rest => ?_) ?_ rfl
    · rw [Binary.readPlain, Binary.readSized_writeBytes]
      rfl
    · show Binary.decimalOf? _ _ = _
      rw [Word.ofSignedBytes_signedSize, hread]
  have hcoerce {coefficient : Nat} {exponent : Int}
      (hc : (c : ℚ) = coefficient * 10 ^ (exponent - target)) (path : String) :
      coerce options path (.obj ms) (.decimal (.finite (decide (n < 0)) coefficient exponent)) =
        .ok (.decimal (.finite (decide (n < 0)) c target)) := by
    rw [coerce_decimal options path htype hl rfl]
    exact scaled_finite.mpr ⟨_, _, _, hscale, ht, hc, hroom, rfl⟩
  have hpower : (c : ℚ) = (c * 10 ^ zeros : Nat) * 10 ^ ((dropped : Int) - scale - target) := by
    have hten : (10 : ℚ) ≠ 0 := by norm_num
    rw [show (dropped : Int) - scale - target = -(zeros : Int) by omega, zpow_neg, zpow_natCast]
    push_cast
    field_simp
  exact ⟨_, .decimal (.finite (decide (n < 0)) c target),
    hstable (by rw [unwrap, hn]), hstable (hunwrap hdigits hk habs),
    hcoerce hpower, hcoerce (by rw [Int.sub_self, zpow_zero, mul_one]), ⟨by simp, by simp⟩, by simp⟩

end decimal

/-! ## All scalars -/

/-- The name of a primitive type. -/
def Primitive.name : Primitive → String
  | .null => "null"
  | .boolean => "boolean"
  | .int => "int"
  | .long => "long"
  | .float => "float"
  | .double => "double"
  | .bytes => "bytes"
  | .string => "string"

theorem Primitive.eq_name {s : String} (h : Primitive.ofName? s = some type) : s = type.name := by
  unfold Primitive.ofName? at h
  split at h <;> cases h <;> rfl

/-- Whatever the table of scalars makes of a value and is written is renewed, unless it is null or an
identifier. -/
theorem renewed_scalar (hkind : Primitive.ofName? (Schema.typeName node) = some type)
    (hmeaning : (∃ name, node = .str name ∧ meaning = none) ∨
      ∃ ms, node = .obj ms ∧ meaning = Layout.meaning? type ms)
    (huuid : Schema.logicalName? node ≠ some "uuid") (hnull : type ≠ .null)
    (h : coerce options path node v = .ok datum) (hheld : datum.instantHeld = true)
    (hwrite : writeDatum types fuel (.primitive type meaning) datum = .ok bytes) :
    ∃ stored view, Renewed options types node (.primitive type meaning) datum stored view := by
  have htype := Primitive.eq_name hkind
  have hkept {meaning : Option Meaning}
      (h : ∃ stored, Kept options types node (.primitive type meaning) datum stored) :
      ∃ stored view, Renewed options types node (.primitive type meaning) datum stored view := by
    obtain ⟨stored, h⟩ := h
    exact ⟨stored, stored, h.renewed⟩
  have hplain (hdecimal : type = .bytes → Schema.logicalName? node ≠ some "decimal")
      (hwrite : writeDatum types fuel (.primitive type none) datum = .ok bytes) :
      ∃ stored, Kept options types node (.primitive type none) datum stored := by
    cases type with
    | null => exact absurd rfl hnull
    | boolean => exact kept_boolean htype h
    | int => exact kept_plain (.inl ⟨rfl, htype⟩) h hwrite
    | long => exact kept_plain (.inr ⟨rfl, htype⟩) h hwrite
    | float => exact kept_float htype h
    | double => exact kept_double htype h
    | string => exact kept_string htype h
    | bytes =>
      refine kept_bytes htype (fun hl => ?_) h
      have hnot := hdecimal rfl
      cases hlogical : Schema.logicalName? node with
      | none =>
        rw [hlogical] at hl
        exact absurd hl (by decide)
      | some logical =>
        rw [hlogical] at hl hnot
        exact hnot (congrArg some hl)
  obtain ⟨name, rfl, rfl⟩ | ⟨ms, rfl, rfl⟩ := hmeaning
  · exact hkept (hplain (fun _ => (Option.some_ne_none _).symm) hwrite)
  · revert hwrite
    unfold Layout.meaning?
    split <;> intro hwrite
    · rename_i hl
      exact hkept (kept_timestamp htype hl (by decide) (.inl rfl) h hheld hwrite)
    · rename_i hl
      exact hkept (kept_timestamp htype hl (by decide) (.inr rfl) h hheld hwrite)
    · rename_i hl
      exact hkept (kept_local htype hl (by decide) (.inl rfl) h hwrite)
    · rename_i hl
      exact hkept (kept_local htype hl (by decide) (.inr rfl) h hwrite)
    · rename_i hl
      exact hkept (kept_date htype hl h hwrite)
    · rename_i hl
      exact hkept (kept_time (.inl ⟨rfl, htype⟩) hl (by decide) (.inl rfl) h hwrite)
    · rename_i hl
      exact hkept (kept_time (.inr ⟨rfl, htype⟩) hl (by decide) (.inr rfl) h hwrite)
    · rename_i hl
      exact renewed_decimal htype hl h hwrite
    · rename_i hl
      exact absurd hl huuid
    · rename_i hdecimal _
      exact hkept (hplain (fun hbytes => hdecimal hbytes) hwrite)

/-- Null is only made at null. -/
theorem coerce_null (h : coerce options path node v = .ok .null) :
    Schema.typeName node = "null" := by
  obtain ⟨w, h⟩ := coerce_ok h
  by_contra hnull
  unfold convert at h
  simp only at h
  rw [if_neg hnull] at h
  split at h
  · unfold Coercion.toString at h
    split at h <;> cases h
  split at h
  · split at h <;> cases h
  split at h
  · obtain ⟨_, hd⟩ | ⟨_, hd⟩ | ⟨_, hd⟩ | ⟨_, hd, -⟩ := toInteger_cases h <;> cases hd
  split at h
  · obtain ⟨_, hd⟩ := toFloat_ok h
    cases hd
  split at h
  · unfold toBytes at h
    split at h
    · split at h
      · obtain ⟨_, _, _, _, -, -, -, hd⟩ := scaled_ok h
        cases hd
      · cases h
    · split at h <;> cases h
  · cases h

/-- Nothing but null is made at null. -/
theorem coerce_atNull (htype : Schema.typeName node = "null")
    (h : coerce options path node v = .ok datum) : datum = .null := by
  obtain ⟨w, h⟩ := coerce_ok h
  unfold convert at h
  simp only at h
  rw [if_pos htype] at h
  split at h <;> cases h
  rfl

end AvroDocument
