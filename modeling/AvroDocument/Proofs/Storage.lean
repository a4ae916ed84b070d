import AvroDocument.Proofs.Acceptance
import AvroDocument.Proofs.Layouts
import AvroDocument.Proofs.Preparation

/-!
# AvroDocument.Proofs.Storage

The data of documents as bytes and back.

* `InCalendar`: documents whose timestamps and times can be held without an offset of their own.
* `store_leaf`: scalars of every type.
* `store_admits`: whatever an outline has room for is written, and read back with timestamps in UTC.
-/

namespace AvroDocument

/-- The timestamp that shows the same instant in UTC; local times as they are. -/
def Timestamp.inUtc (t : Timestamp) : Timestamp :=
  match t.instant? with
  | some n => (Timestamp.ofInstant? n Offset.utc).getD t
  | none => t

/-- Whether a value is no timestamp of an instant outside the calendar and no time with an
offset. -/
def Value.isTimely : Value → Bool
  | .timestamp t =>
    match t.instant? with
    | some n => 0 ≤ n && n < (Calendar.microSpan : Int)
    | none => true
  | .time t => t.offset.isNone
  | _ => true

/-- Instants lie in the years 1 to 9999 of UTC, and times have no offset, at any depth. -/
def InCalendar (v : Value) : Prop := v.Everywhere fun w => w.isTimely = true

instance (v : Value) : Decidable (InCalendar v) :=
  inferInstanceAs (Decidable (v.Everywhere fun w => w.isTimely = true))

namespace Inference

open Binary (Writes Reads)
open Calendar (epochDay epochMicros microSpan dayMicros daySpan)

/-- A scalar after it was written and read: bytes of both kinds are one, and instants are shown in
UTC. -/
def storedScalar : Value → Value
  | .timestamp t => .timestamp t.inUtc
  | v => plainScalar v

/-! ## Scalars -/

/-- A scalar that is written as a layout and, if the calendar holds it, read back. -/
def Stores (layout : Layout) (v : Value) : Prop :=
  ∃ bytes, Writes layout (plainScalar v) bytes ∧
    (v.isTimely = true → Reads layout bytes (storedScalar v))

theorem store_long {meaning : Option Meaning} {v : Value} {n : Int} {type : Primitive}
    (ht : type = .int ∧ fitsInt32 n = true ∨ type = .long)
    (hu : Binary.unwrap meaning (plainScalar v) = .ok (.int n)) (hn : fitsInt64 n = true)
    (hw : v.isTimely = true → Binary.wrap meaning (.int n) = some (storedScalar v)) :
    Stores (.primitive type meaning) v := by
  have hwrite : Binary.writePlain type (.int n) = .ok (Varint.writeInt n) := by
    rcases ht with ⟨rfl, _⟩ | rfl <;> simp [Binary.writePlain, Binary.whole?, hn]
  have hread : ∀ rest, Binary.readPlain type (Varint.writeInt n ++ rest) = .ok (.int n, rest) := by
    intro rest
    rcases ht with ⟨rfl, _⟩ | rfl <;>
      simp only [Binary.readPlain, Binary.readInt_writeInt] <;> rfl
  refine ⟨_, Binary.writes_primitive hu ?_ hwrite, fun h =>
    Binary.reads_primitive hread (hw h)⟩
  rcases ht with ⟨rfl, h32⟩ | rfl
  · exact h32
  · exact hn

theorem store_bytes (bs : List UInt8) {v : Value} (hv : plainScalar v = .bytes bs)
    (hs : storedScalar v = .bytes bs) : Stores (.primitive .bytes none) v := by
  refine ⟨Binary.writeBytes bs, ?_, fun _ => ?_⟩
  · rw [hv]
    exact Binary.writes_primitive rfl rfl rfl
  · rw [hs]
    refine Binary.reads_primitive (fun rest => ?_) rfl
    rw [Binary.readPlain, Binary.readSized_writeBytes]
    rfl

theorem store_float (x : Binary64) : Stores (.primitive .double none) (.float x) := by
  refine ⟨Word.littleEndian 8 x.bits.toNat, Binary.writes_primitive rfl rfl rfl, fun _ => ?_⟩
  refine Binary.reads_primitive (fun rest => ?_) rfl
  have htake := Binary.takeBytes_append (Word.littleEndian 8 x.bits.toNat) rest
  rw [Word.length_littleEndian] at htake
  have hbits : UInt64.ofNat (Word.ofLittleEndian (Word.littleEndian 8 x.bits.toNat)) = x.bits := by
    rw [Word.ofLittleEndian_littleEndian,
      Nat.mod_eq_of_lt (show x.bits.toNat < 256 ^ 8 from x.bits.toNat_lt), UInt64.ofNat_toNat]
  rw [Binary.readPlain, htake]
  simp only [Except.map, hbits]
  rfl

theorem store_bool (b : Bool) : Stores (.primitive .boolean none) (.bool b) := by
  refine ⟨[if b then 1 else 0], Binary.writes_primitive rfl rfl rfl, fun _ => ?_⟩
  refine Binary.reads_primitive (fun rest => ?_) rfl
  cases b <;> rfl

theorem store_text (s : String) : Writes (.primitive .string none) (.text s) (Binary.writeText s) ∧
    Reads (.primitive .string none) (Binary.writeText s) (.text s) := by
  refine ⟨Binary.writes_primitive rfl rfl rfl, Binary.reads_primitive (fun rest => ?_) rfl⟩
  rw [Binary.readPlain, Binary.readText_writeText]
  rfl

theorem store_timestamp (t : Timestamp) :
    Stores (.primitive .long (some (if t.isAware then .timestampMicros else .localTimestampMicros)))
      (.timestamp t) := by
  obtain ⟨wall, bounded, offset⟩ := t
  have hspan : microSpan = 315537897600000000 := rfl
  have hday : dayMicros = 86400000000 := rfl
  have hepoch : (epochMicros : Int) = 62135596800000000 := rfl
  cases offset with
  | none =>
    refine store_long (.inr rfl) (n := (wall : Int) - epochMicros) rfl ?_ fun _ => ?_
    · unfold fitsInt64
      simp only [Bool.and_eq_true, decide_eq_true_eq]
      omega
    · show (Timestamp.ofWall? ((wall : Int) - epochMicros + epochMicros) none).map _ = _
      rw [Int.sub_add_cancel, Timestamp.ofWall?, dif_pos ⟨by omega, bounded⟩]
      rfl
  | some o =>
    have ho := o.bounded
    refine store_long (.inr rfl) (n := (wall : Int) - o.micros - epochMicros) rfl ?_ fun h => ?_
    · unfold fitsInt64
      simp only [Bool.and_eq_true, decide_eq_true_eq]
      omega
    · have hin : 0 ≤ (wall : Int) - o.micros ∧ (wall : Int) - o.micros < microSpan := by
        simpa [Value.isTimely, Timestamp.instant?, Timestamp.instantAt] using h
      have hshown : Timestamp.ofWall? ((wall : Int) - o.micros) (some Offset.utc) =
          some ⟨((wall : Int) - o.micros).toNat, by omega, some Offset.utc⟩ := by
        rw [Timestamp.ofWall?, dif_pos ⟨hin.1, by omega⟩]
      show (Timestamp.ofWall? ((wall : Int) - o.micros - epochMicros + epochMicros)
        (some Offset.utc)).map Value.timestamp = some (Value.timestamp _)
      rw [Int.sub_add_cancel, hshown]
      simp only [Option.map_some, Timestamp.inUtc, Timestamp.instant?, Timestamp.instantAt,
        Timestamp.ofInstant?]
      rw [show (wall : Int) - o.micros + Offset.utc.micros = (wall : Int) - o.micros from
        Int.add_zero _, hshown]
      rfl

theorem store_date (d : Date) : Stores (.primitive .int (some .date)) (.date d) := by
  obtain ⟨day, bounded⟩ := d
  have hspan : daySpan = 3652059 := rfl
  have hepoch : (epochDay : Int) = 719162 := rfl
  refine store_long (.inl ⟨rfl, ?_⟩) (n := (day : Int) - epochDay) rfl ?_ fun _ => ?_
  · unfold fitsInt32
    simp only [Bool.and_eq_true, decide_eq_true_eq]
    omega
  · unfold fitsInt64
    simp only [Bool.and_eq_true, decide_eq_true_eq]
    omega
  · show (Date.ofDay? ((day : Int) - epochDay + epochDay)).map _ = _
    rw [Int.sub_add_cancel, Date.ofDay?, dif_pos ⟨by omega, bounded⟩]
    rfl

theorem store_time (t : TimeOfDay) : Stores (.primitive .long (some .timeMicros)) (.time t) := by
  obtain ⟨micros, bounded, offset⟩ := t
  have hday : dayMicros = 86400000000 := rfl
  refine store_long (.inr rfl) (n := micros) rfl ?_ fun h => ?_
  · unfold fitsInt64
    simp only [Bool.and_eq_true, decide_eq_true_eq]
    omega
  · cases offset with
    | none =>
      show (TimeOfDay.ofMicros? micros none).map _ = _
      rw [TimeOfDay.ofMicros?, dif_pos ⟨by omega, bounded⟩]
      rfl
    | some o => cases h

/-- Scalars of every type are written as their type. -/
theorem store_leaf {type : Json} {v : Value} (hw : type ≠ widest) (h : leafType? v = some type) :
    Stores (scalarLayout type) v := by
  cases v with
  | bool b =>
    cases h
    exact store_bool b
  | int n =>
    rw [leafType?, if_pos (show isLeaf (.int n) = true from rfl), scalarType?_int,
      Option.some.injEq] at h
    split at h
    · rename_i hfits
      subst h
      exact store_long (.inr rfl) rfl hfits fun _ => rfl
    · exact absurd h.symm hw
  | float x =>
    cases h
    exact store_float x
  | decimal d | text s => exact absurd (Option.some.inj h).symm hw
  | timestamp t =>
    have hstore := store_timestamp t
    obtain ⟨wall, bounded, offset⟩ := t
    cases offset <;> (cases h; exact hstore)
  | date d =>
    cases h
    exact store_date d
  | time t =>
    cases h
    exact store_time t
  | bytes bs =>
    cases h
    exact store_bytes bs rfl rfl
  | byteArray bs =>
    cases h
    exact store_bytes bs rfl rfl
  | null | struct _ | list _ | tuple _ | uuid _ | set _ | missing => cases h

/-! ## Values -/

variable {names : List (Position × String)}

/-- The datum of a value is written as a layout and, if the calendar holds the value, read back. -/
def Keeps (layout : Layout) (v datum stored : Value) : Prop :=
  ∃ bytes, Writes layout datum bytes ∧ (InCalendar v → Reads layout bytes stored)

theorem keeps_null : Keeps (.primitive .null none) .null .null .null :=
  ⟨[], Binary.writes_null, fun _ => Binary.reads_null⟩

theorem keeps_absent (layout : Layout) : Keeps (optionalLayout true layout) .null .null .null :=
  ⟨_, Binary.writes_absent, fun _ => Binary.reads_absent⟩

theorem Keeps.optional {layout : Layout} {v datum stored : Value} (h : Keeps layout v datum stored)
    (hn : datum ≠ .null) (nullable : Bool) :
    Keeps (optionalLayout nullable layout) v datum stored := by
  obtain ⟨bytes, hw, hr⟩ := h
  cases nullable with
  | false => exact ⟨bytes, hw, hr⟩
  | true =>
    exact ⟨_, Binary.writes_present hw hn, fun hc => Binary.reads_present (hr hc)⟩

theorem Keeps.array {layout : Layout} {v : Value} {vs : List Value} (hi : v.items? = some vs)
    {datum stored : Value → Value} (h : ∀ w ∈ vs, Keeps layout w (datum w) (stored w)) :
    Keeps (.array layout) v (.list (vs.map datum)) (.list (vs.map stored)) := by
  have hchosen : ∀ w, ∃ bytes, w ∈ vs →
      Writes layout (datum w) bytes ∧ (InCalendar w → Reads layout bytes (stored w)) := by
    intro w
    by_cases hw : w ∈ vs
    · obtain ⟨bytes, hb⟩ := h w hw
      exact ⟨bytes, fun _ => hb⟩
    · exact ⟨[], fun hw' => absurd hw' hw⟩
  obtain ⟨bytes, hbytes⟩ := Classical.axiomOfChoice hchosen
  refine ⟨_, Binary.writes_array fun w hw => (hbytes w hw).1, fun hc =>
    Binary.reads_array fun w hw => (hbytes w hw).2 (hc.child ?_)⟩
  cases v <;> cases hi <;> exact hw

theorem fieldLayouts_eq (fields : List (FieldKey × Outline)) :
    Outline.fieldLayouts names fields = Binary.fieldsFor (·.1.name)
      (fun f => if f.2.isNull || f.1.nullable then some Json.null else none)
      (fun f => optionalLayout (f.1.nullable && !f.2.isNull) (f.2.layout names)) fields := by
  induction fields with
  | nil => rfl
  | cons f fields ih =>
    rw [Outline.fieldLayouts, ih]
    rfl

theorem Keeps.record {site : RecordSite} {fields : List (FieldKey × Outline)}
    {es : List (Key × Value)} (hn : (fields.map (·.1.name)).Nodup)
    {datum stored : FieldKey × Outline → Value}
    (h : ∀ f ∈ fields, Keeps (optionalLayout (f.1.nullable && !f.2.isNull) (f.2.layout names))
      ((Value.member? f.1.key es).getD .null) (datum f) (stored f)) :
    Keeps ((Outline.record site fields).layout names) (.struct es)
      (.struct (Binary.entriesFor (·.1.name) datum fields))
      (.struct (Binary.entriesFor (·.1.name) stored fields)) := by
  have hchosen : ∀ f : FieldKey × Outline, ∃ bytes, f ∈ fields →
      Writes (optionalLayout (f.1.nullable && !f.2.isNull) (f.2.layout names)) (datum f) bytes ∧
      (InCalendar ((Value.member? f.1.key es).getD .null) →
        Reads (optionalLayout (f.1.nullable && !f.2.isNull) (f.2.layout names)) bytes
          (stored f)) := by
    intro f
    by_cases hf : f ∈ fields
    · obtain ⟨bytes, hb⟩ := h f hf
      exact ⟨bytes, fun _ => hb⟩
    · exact ⟨[], fun hf' => absurd hf' hf⟩
  obtain ⟨bytes, hbytes⟩ := Classical.axiomOfChoice hchosen
  rw [Outline.layout, fieldLayouts_eq]
  refine ⟨_, Binary.writes_record _ hn fun f hf => (hbytes f hf).1, fun hc =>
    Binary.reads_record _ hn fun f hf => (hbytes f hf).2 (hc.member rfl f.1.key)⟩

/-- Whatever an outline has room for is written, and read back with instants in UTC. -/
theorem store_admits {o : Outline} {nullable : Bool} {v : Value} (h : Admits o nullable v)
    (hv : o.Valid) :
    Keeps (optionalLayout (nullable && !o.isNull) (o.layout names)) v
      (o.image (·.name) plainScalar v) (o.image (·.name) storedScalar v) := by
  induction h with
  | @added o =>
    rw [image_null, image_null, Bool.true_and]
    cases o with
    | null => exact keeps_null
    | _ => exact keeps_absent _
  | nothing =>
    rw [image_null, image_null, Outline.isNull, Bool.not_true, Bool.and_false]
    exact keeps_null
  | @text nullable v hn hs =>
    rw [image_text _ _ hn, image_text _ _ hn]
    refine Keeps.optional ?_ Value.noConfusion _
    exact ⟨_, (store_text v.written).1, fun _ => (store_text v.written).2⟩
  | @scalar nullable type v hw h =>
    rw [image_leaf _ _ hw h, image_leaf _ _ hw h]
    obtain ⟨bytes, hwrites, hreads⟩ := store_leaf hw h
    refine Keeps.optional ⟨bytes, hwrites, fun hc => hreads hc.here⟩ ?_ _
    cases v with
    | null => cases h
    | _ => exact Value.noConfusion
  | @list nullable below items v ws h _ ih =>
    have hitems : items.Valid := by
      cases hv with
      | array hi => exact hi
    rw [image_items _ _ h, image_items _ _ h]
    refine Keeps.optional ?_ Value.noConfusion _
    exact Keeps.array h fun w hw => ih w hw hitems
  | @struct nullable site fields es hkeys hall ih =>
    have hfields : ∀ f ∈ fields, Outline.Valid f.2 := by
      cases hv with
      | record _ _ _ h => exact h
    have hn : (fields.map (·.1.name)).Nodup := by
      cases hv with
      | record _ hn _ _ => exact hn
    rw [Outline.image, Outline.image, fieldImages_eq, fieldImages_eq]
    refine Keeps.optional ?_ Value.noConfusion _
    exact Keeps.record hn fun f hf => ih f hf (hfields f hf)

end Inference
end AvroDocument
