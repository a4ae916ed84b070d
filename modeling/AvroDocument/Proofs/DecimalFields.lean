import AvroDocument.Proofs.Fixpoint
import AvroDocument.Proofs.Obstacles
import AvroDocument.Proofs.ProjectedResults

/-!
# AvroDocument.Proofs.DecimalFields

Exact decimals that are written at a field and read back.

* `Schema.oneField`: a record with one field.
* `Encoder.prepare_oneField`, `Binary.write_oneField`, `Decoder.decodeRecord_oneField`: such a record is
  prepared, written and decoded as its field is.
* `encodeRecord_decimal`: what becomes of a number at a field for exact decimals. It is as many units
  of the last place as the field can hold, or it is refused, or decimal arithmetic has too few digits.
-/

namespace AvroDocument

open Coercion (decimalOf? scaled scaleOf)
open Binary (Writes Reads)
open Binary64 (digitCount)

/-! ## Records with one field -/

/-- The schema of a record with one field. -/
def Schema.oneField (record field : String) (type : Json) : Json :=
  .obj [("type", .str "record"), ("name", .str record),
    ("fields", .arr [.obj [("name", .str field), ("type", type)]])]

section oneField

open Schema (oneField)

variable {options : Options} {registry : Schema.Registry} {record field : String}
  {ms : List (String × Json)} {type : Primitive} {layout : Layout} {v w : Value}

/-- The layout of an annotated primitive. -/
theorem Schema.Describes.primitive {names : List String} {ns : String}
    {ds : List (String × Json)} (h : Describes names ns (.obj ms) layout ds)
    (hp : Primitive.ofName? (typeName (.obj ms)) = some type) :
    layout = .primitive type (Layout.meaning? type ms) := by
  cases h with
  | annotated hother =>
    cases hp.symm.trans hother
    rfl
  | array hkind | map hkind | enum hkind | fixed hkind | record hkind =>
    rw [hkind] at hp
    cases hp

theorem Schema.layout_oneField (hp : Primitive.ofName? (typeName (.obj ms)) = some type)
    (h : Layout.ofSchema (oneField record field (.obj ms)) = .ok layout) :
    layout = .record (fullName (oneField record field (.obj ms)) "")
      [(field, none, .primitive type (Layout.meaning? type ms))] := by
  obtain ⟨decls, ha⟩ := accepted_of_ofSchema h
  have hd := ha.describes
  have hkind : typeName (oneField record field (.obj ms)) = "record" := rfl
  unfold oneField at hd hkind ⊢
  cases hd with
  | annotated hother => cases hother
  | array hother | map hother | enum hother | fixed hother =>
    rw [hkind] at hother
    exact absurd hother (by decide)
  | @record _ _ pieces _ hfields hfield hpieces =>
    obtain ⟨piece, rfl, hnode⟩ := List.map_eq_singleton_iff.mp hfields.symm
    have hdefault := (hfield piece List.mem_cons_self).default_eq
    have hinner := hpieces piece List.mem_cons_self
    rw [hnode] at hdefault hinner
    rw [List.map_singleton, Piece.field, hnode, hdefault, Describes.primitive hinner hp]
    rfl

theorem Schema.plain_annotated (hp : Primitive.ofName? (typeName (.obj ms)) = some type)
    (ns : String) : Plain ns (.obj ms) :=
  ⟨.inl rfl, innerOf_unnamed (not_named hp) ns⟩

/-- The only field of a record. -/
theorem Schema.fieldsOf_oneField (record field : String) (node : Json) :
    ∃ f, fieldsOf (oneField record field node) = [f] ∧ nameOf f = field ∧ typeOf f = node ∧
      aliasesOf f = [] ∧ ∀ purpose, altName f purpose = field :=
  ⟨_, rfl, rfl, rfl, rfl, fun _ => rfl⟩

theorem Value.member?_single (field : String) (v : Value) :
    Value.member? field [(.text field, v)] = some v := by
  simp [Value.member?]

/-- A record with one field is prepared as the field is. -/
theorem Encoding.prepareNode_oneField
    (hp : Primitive.ofName? (Schema.typeName (.obj ms)) = some type) (hv : v ≠ .null) :
    prepareNode options registry "" Pointer.root (oneField record field (.obj ms))
        (.struct [(.text field, v)]) =
      (coerce options (Pointer.child Pointer.root field) (.obj ms) v).map fun datum =>
        .struct [(.text field, datum)] := by
  obtain ⟨f, hfields, hname, htype, -, halt⟩ :=
    Schema.fieldsOf_oneField record field (.obj ms)
  have hkind : Schema.typeName (oneField record field (.obj ms)) = "record" := rfl
  have hmember := Value.member?_single field v
  have hclaimed : claimedNames options [f] = [field] := by
    rw [claimedNames, List.map_singleton, halt]
  have hsource : sourceKey? options [field] [(.text field, v)] f = some field := by
    rw [sourceKey?, halt]
    simp only [hasEntry, hmember, Option.isSome_some, if_true]
  have hdatum (inner : String) :
      fieldDatum options registry inner Pointer.root [field] [(.text field, v)] f =
        coerce options (Pointer.child Pointer.root field) (.obj ms) v := by
    rw [fieldDatum, hsource]
    simp only [hmember, htype]
    refine (prepareNode_primitive (r := ⟨.obj ms, registry, options, false⟩)
      (Schema.plain_annotated hp inner) hp v _).trans ?_
    cases v with
    | null => exact absurd rfl hv
    | _ => rfl
  rw [prepareNode_other (by unfold oneField; exact fun _ => Json.noConfusion)]
  show preparePlain options registry _ Pointer.root _ _ = _
  rw [preparePlain, if_pos hkind, hfields, hclaimed, prepareFields_cons, hdatum, hname]
  cases coerce options (Pointer.child Pointer.root field) (.obj ms) v with
  | error e => rfl
  | ok datum =>
    simp only [prepareFields, List.filterMap_cons, hsource, List.filterMap_nil, checkDeclared]
    cases options.strictSchema <;> simp [Except.map]

/-- A record with one field is reconciled as the field is. -/
theorem Reconciler.toValue_oneField {strict : Bool}
    (hp : Primitive.ofName? (Schema.typeName (.obj ms)) = some type)
    (hv : coerce options (Pointer.child Pointer.root field) (.obj ms) v = .ok w) (hnull : v ≠ .null) :
    Reconciler.toValue ⟨oneField record field (.obj ms), registry, options, strict⟩
      (.struct [(.text field, v)]) = .ok (.struct [(.text field, w)]) := by
  obtain ⟨f, hfields, hname, htype, haliases, halt⟩ :=
    Schema.fieldsOf_oneField record field (.obj ms)
  have hkind : Schema.typeName (oneField record field (.obj ms)) = "record" := rfl
  have hmember := Value.member?_single field v
  have hsource : Decoding.sourceName? [(.text field, v)] f = some field := by
    rw [Decoding.sourceName?, hname, haliases]
    simp only [List.find?_cons, hmember, Option.isSome_some]
  have hscalar : Decoding.scalarValue options (Pointer.child Pointer.root field) (.obj ms) v =
      .ok w := by
    unfold Decoding.scalarValue
    split
    · exact absurd rfl hnull
    · rw [hv]
  have hvalue (inner : String) :
      Reconciler.fieldValue ⟨oneField record field (.obj ms), registry, options, strict⟩ inner
        Pointer.root [(.text field, v)] f = .ok w := by
    rw [fieldValue, hsource]
    simp only [hmember, htype, halt]
    rw [valueNode_primitive (Schema.plain_annotated hp inner) hp, hscalar]
  rw [toValue, valueNode_other (by unfold oneField; exact fun _ => Json.noConfusion)]
  show valuePlain _ _ Pointer.root _ _ = _
  rw [valuePlain, if_pos hkind]
  simp only [hfields, valueFields_cons, hvalue, halt, valueFields, Value.setEntry,
    List.filterMap_cons, hsource, List.filterMap_nil, Decoding.checkKnown, Encoding.keyText]
  cases strict <;> simp

/-- A record with one field is written as the field is. -/
theorem Binary.write_oneField {name : String} {meaning : Option Meaning} :
    write (.record name [(field, none, .primitive type meaning)]) (.struct [(.text field, v)]) =
      (unwrap meaning v).bind (writePlain type) := by
  have hown : fieldValue [(.text field, v)] field none = v := by
    rw [fieldValue, Value.member?_single]
  rw [write, writeDatum]
  · rw [writeFields, hown, writeDatum, writeFields]
    cases unwrap meaning v with
    | error e => rfl
    | ok plain =>
      simp only [Except.bind]
      cases writePlain type plain with
      | error e => rfl
      | ok bytes => simp [Except.map]
  · exact List.cons_ne_nil _ _

/-- A record with one field is read as the field is. -/
theorem Binary.reads_oneField {name : String} {l : Layout} {bytes : List UInt8}
    (h : Reads l bytes v) :
    Reads (.record name [(field, none, l)]) bytes (.struct [(.text field, v)]) := by
  have hrecord : Reads (.record name (fieldsFor (fun _ => field) (fun _ => none) (fun _ => l) [()]))
      ([()].flatMap fun _ => bytes) (.struct (entriesFor (fun _ => field) (fun _ => v) [()])) :=
    reads_record name (List.nodup_singleton _) fun _ _ => h
  rwa [List.flatMap_singleton] at hrecord

/-- The parts of an encoder for records with one field. -/
theorem Encoder.oneField_parts {e : Encoder}
    (he : Encoder.ofSchema options (oneField record field (.obj ms)) = .ok e)
    (hp : Primitive.ofName? (Schema.typeName (.obj ms)) = some type) :
    e.options = options ∧ e.schema = oneField record field (.obj ms) ∧ e.layout.Regular ∧
      ∃ name, e.layout = .record name [(field, none, .primitive type (Layout.meaning? type ms))] := by
  obtain ⟨layout, -, hlayout, hregular, rfl⟩ := Encoder.ofSchema_parts he
  exact ⟨rfl, rfl, hregular, _, Schema.layout_oneField hp hlayout⟩

theorem Encoder.prepare_oneField {e : Encoder}
    (he : Encoder.ofSchema options (oneField record field (.obj ms)) = .ok e)
    (hp : Primitive.ofName? (Schema.typeName (.obj ms)) = some type) (hv : v ≠ .null) :
    e.prepare (.struct [(.text field, v)]) =
      (coerce options (Pointer.child Pointer.root field) (.obj ms) v).map fun datum =>
        .struct [(.text field, datum)] := by
  obtain ⟨rfl, hschema, -⟩ := Encoder.oneField_parts he hp
  rw [Encoder.prepare, hschema]
  exact Encoding.prepareNode_oneField hp hv

/-- A record with one field is decoded as the field is read and reconciled. -/
theorem Decoder.decodeRecord_oneField {d : Decoder} {bytes : List UInt8}
    (hd : Decoder.ofSchema options (some (oneField record field (.obj ms))) = .ok d)
    (hp : Primitive.ofName? (Schema.typeName (.obj ms)) = some type) (hv : v ≠ .null)
    (hreads : Reads (.primitive type (Layout.meaning? type ms)) bytes v)
    (hcoerce : coerce options (Pointer.child Pointer.root field) (.obj ms) v = .ok w) :
    d.decodeRecord bytes = .ok (.struct [(.text field, w)]) := by
  obtain ⟨layout, -, hlayout, -, rfl⟩ := Decoder.ofSchema_parts hd
  refine Decoder.decodeRecord_holds ?_ (Reconciler.toValue_oneField hp hcoerce hv)
  rw [Schema.layout_oneField hp hlayout]
  exact (Binary.reads_oneField hreads).holds

end oneField

/-! ## Numbers at a scale -/

section decimal

variable {options : Options} {path : String} {ms : List (String × Json)} {v : Value}
  {p : Nat} {s : Int} {negative : Bool} {c n : Nat} {exponent : Int}

/-- A number with more digits than its type has is not written. -/
theorem Binary.unscaled_rejected {type : DecimalType} (hprecision : type.precision = some p)
    (hscale : type.scale = some s) (h : p < digitCount n) :
    unscaled type negative n (-s) = .error .rejected := by
  unfold unscaled
  simp only [hprecision, hscale, h, decide_true, Bool.true_or, if_true]

/-- A number that its type has digits for is written, and read back without the sign of zero. -/
theorem Binary.reads_decimal {type : DecimalType} (hprecision : type.precision = some p)
    (hscale : type.scale = some s) (h : digitCount n ≤ p) (negative : Bool) :
    ∃ bytes sign, (unwrap (some (.decimal type)) (.decimal (.finite negative n (-s)))).bind
        (writePlain .bytes) = .ok bytes ∧
      Reads (.primitive .bytes (some (.decimal type))) bytes (.decimal (.finite sign n (-s))) ∧
      (sign = negative ∨ n = 0) := by
  obtain ⟨m, hm⟩ : ∃ m : Int, m = if negative then -(n : Int) else n := ⟨_, rfl⟩
  have habs : m.natAbs = n := by
    rw [hm]
    split <;> omega
  have hshift : -s + s = 0 := by omega
  have hunscaled : unscaled type negative n (-s) = .ok m := by
    refine (unscaled_iff hscale).mpr ⟨⟨p, hprecision, h⟩, hshift.ge, ?_⟩
    rw [hshift, Int.toNat_zero, Nat.pow_zero, Nat.mul_one, hm]
  let word := Word.signedBytes (Word.signedSize m) m
  have hplain (rest : List UInt8) :
      readPlain .bytes (writeBytes word ++ rest) = .ok (.bytes word, rest) := by
    rw [readPlain, readSized_writeBytes]
    rfl
  have hmeans : wrap (some (.decimal type)) (.bytes word) =
      some (.decimal (.finite (decide (m < 0)) n (-s))) := by
    obtain ⟨zeros, dropped, hzeros, -, hread⟩ :=
      decimalOf?_unscaled hscale hprecision (k := 0) (by rw [habs, Nat.pow_zero, Nat.mul_one]) h
    obtain ⟨rfl, rfl⟩ : zeros = 0 ∧ dropped = 0 := by omega
    show decimalOf? _ _ = _
    rw [Word.ofSignedBytes_signedSize, hread, Nat.pow_zero, Nat.mul_one, Int.ofNat_zero, Int.zero_sub]
  refine ⟨writeBytes word, decide (m < 0), ?_, reads_primitive hplain hmeans, ?_⟩
  · rw [unwrap, hunscaled]
    rfl
  · cases negative with
    | true =>
      rw [if_pos rfl] at hm
      by_cases hzero : n = 0
      · exact .inr hzero
      · exact .inl (decide_eq_true (by omega))
    | false =>
      rw [if_neg Bool.false_ne_true] at hm
      exact .inl (decide_eq_false (by omega))

/-- A node of exact decimals with a number of digits, some of them behind the point. -/
structure Schema.IsDecimal (ms : List (String × Json)) (p : Nat) (s : Int) : Prop where
  kind : typeName (.obj ms) = "bytes"
  logical : logicalName? (.obj ms) = some "decimal"
  type : Layout.decimalType ms = ⟨some p, some s⟩

/-- The number that a finite decimal stands for. -/
def Decimal.worth (negative : Bool) (coefficient : Nat) (exponent : Int) : ℚ :=
  (if negative then -1 else 1) * coefficient * 10 ^ exponent

/-- A number that keeps its size at another exponent is the same number, up to the sign of zero. -/
theorem Decimal.worth_eq {sign : Bool} (hn : (n : ℚ) = c * 10 ^ (exponent + s))
    (hsign : sign = negative ∨ n = 0) : worth sign n (-s) = worth negative c exponent := by
  have hsize : (n : ℚ) * 10 ^ (-s) = c * 10 ^ exponent := by
    rw [hn, mul_assoc, ← zpow_add₀ (by norm_num), Int.add_neg_cancel_right]
  unfold worth
  rw [mul_assoc, mul_assoc, hsize]
  obtain rfl | rfl := hsign
  · rfl
  · rw [← hsize, Nat.cast_zero, zero_mul, mul_zero, mul_zero]

theorem Schema.IsDecimal.meaning (h : Schema.IsDecimal ms p s) :
    Layout.meaning? .bytes ms = some (.decimal ⟨some p, some s⟩) := by
  rw [← h.type]
  unfold Layout.meaning?
  rw [h.logical]
  rfl

/-- The layout of a field of exact decimals says that its scale is not negative. -/
theorem Schema.IsDecimal.nonneg (h : Schema.IsDecimal ms p s) {name field : String}
    (hregular : (Layout.record name
      [(field, none, .primitive .bytes (Layout.meaning? .bytes ms))]).Regular) : 0 ≤ s := by
  rw [h.meaning] at hregular
  cases hregular with
  | record _ hfields =>
    cases hfields _ List.mem_cons_self with
    | primitive _ hscale => exact hscale _ s rfl rfl

/-- A scale with no more places than decimal arithmetic gives to a number. -/
theorem Coercion.targetOf_places (hpos : 0 ≤ s) (hplaces : s ≤ -Decimal.workingFloor) :
    targetOf s = .ok (-s) := by
  have hfloor : Decimal.workingFloor = -1000026 := by decide
  refine targetOf_eq_ok.mpr ⟨⟨?_, ?_⟩, ?_⟩
  · unfold Decimal.shiftLimit
    omega
  · unfold Decimal.workingExponent
    omega
  · omega

/-- A number at the scale of a decimal node. -/
theorem Schema.IsDecimal.scaled (h : Schema.IsDecimal ms p s)
    (ht : Coercion.targetOf s = .ok (-s)) :
    scaled path (.obj ms) v (.finite negative c exponent) =
      match Decimal.quantize? c exponent (-s) with
      | none => .error .invalidOperation
      | some r =>
        if r.exact then .ok (.decimal (.finite negative r.coefficient (-s)))
        else .error (.encoding path (.obj ms) v (.wrongScale (Coercion.numberText v)
          ((Json.obj ms).getD "scale" (.int 0)).display)) := by
  have hscale : scaleOf (.obj ms) = .ok s := Coercion.scaleOf_decimalType (by rw [h.type])
  cases hquantize : Decimal.quantize? c exponent (-s) with
  | none => simp only [Coercion.scaled, hscale, ht, hquantize]
  | some r => simp only [Coercion.scaled, hscale, ht, hquantize]

section quantize

variable (hpos : 0 ≤ s)
include hpos

theorem Decimal.places_le : -s ≤ workingExponent := by
  unfold workingExponent
  omega

theorem Decimal.room_places : -s + workingDigits ≤ workingExponent + 1 := by
  unfold workingDigits workingExponent
  omega

/-- Decimal arithmetic has too few digits for a number at a scale. -/
theorem Decimal.quantize?_places :
    quantize? c exponent (-s) = none ↔ workingLimit ≤ c * 10 ^ (exponent + s) := by
  rw [quantize?_eq_none (places_le hpos), limitAt_eq (room_places hpos), sub_neg_eq_add]

/-- A whole number that decimal arithmetic has digits for is what a number becomes at a scale. -/
theorem Decimal.quantize?_whole :
    quantize? c exponent (-s) = some ⟨n, true⟩ ↔
      (n : ℚ) = c * 10 ^ (exponent + s) ∧ (c : ℚ) * 10 ^ (exponent + s) < workingLimit := by
  rw [quantize?_exact_iff (places_le hpos), digitsAt_eq (room_places hpos), sub_neg_eq_add]
  refine and_congr_right fun hn => ?_
  rw [← hn, natCast_lt_workingLimit]

end quantize

/-- A number at a field of exact decimals, at whose scale it is a multiple of the last place by some
ratio. The field has no more places than decimal arithmetic gives to a number. It is written and comes
back as it is when the ratio is a whole number with no more digits than the field has, and is refused
when it is no such number, but neither beyond the digits of decimal arithmetic, where it breaks off. -/
theorem encodeRecord_decimal {options' : Options} {record field : String} {e : Encoder} {d : Decoder}
    (hnode : Schema.IsDecimal ms p s) (hplaces : s ≤ -Decimal.workingFloor)
    (he : Encoder.ofSchema options (Schema.oneField record field (.obj ms)) = .ok e)
    (hd : Decoder.ofSchema options' (some (Schema.oneField record field (.obj ms))) = .ok d)
    (hv : decimalOf? v = some (.finite negative c exponent)) :
    let ratio : ℚ := c * 10 ^ (exponent + s)
    let document : Value := .struct [(.text field, v)]
    (Decimal.workingLimit ≤ ratio → e.encodeRecord document = .error .invalidOperation) ∧
    (ratio < Decimal.workingLimit → (∀ n : Nat, (n : ℚ) = ratio → p < digitCount n) →
      ∃ path expected actual fault,
        e.encodeRecord document = .error (.encoding path expected actual fault)) ∧
    ∀ n : Nat, (n : ℚ) = ratio → digitCount n ≤ p → ratio < Decimal.workingLimit →
      ∃ bytes sign, e.encodeRecord document = .ok bytes ∧
        d.decodeRecord bytes = .ok (.struct [(.text field, .decimal (.finite sign n (-s)))]) ∧
        Decimal.worth sign n (-s) = Decimal.worth negative c exponent := by
  intro ratio document
  have hprimitive : Primitive.ofName? (Schema.typeName (.obj ms)) = some .bytes := by
    rw [hnode.kind]
    rfl
  have hvalue : v ≠ .null := by
    rintro rfl
    cases hv
  obtain ⟨-, -, hregular, name, hlayout⟩ := Encoder.oneField_parts he hprimitive
  have hpos : 0 ≤ s := hnode.nonneg (hlayout ▸ hregular)
  have ht := Coercion.targetOf_places hpos hplaces
  have hprepare : e.prepare document =
      (scaled (Pointer.child Pointer.root field) (.obj ms) v (.finite negative c exponent)).map
        fun datum => .struct [(.text field, datum)] := by
    rw [Encoder.prepare_oneField he hprimitive hvalue,
      coerce_decimal _ _ hnode.kind hnode.logical hv]
  have hwrite (n : Nat) : Binary.write e.layout
      (.struct [(.text field, .decimal (.finite negative n (-s)))]) =
        (Binary.unwrap (some (.decimal ⟨some p, some s⟩)) (.decimal (.finite negative n (-s)))).bind
          (Binary.writePlain .bytes) := by
    rw [hlayout, hnode.meaning, Binary.write_oneField]
  refine ⟨fun hlimit => ?_, fun hless hmisfits => ?_, fun n hn hroom hless => ?_⟩
  · rw [hnode.scaled ht, (Decimal.quantize?_places hpos).mpr hlimit] at hprepare
    rw [Encoder.encodeRecord, hprepare]
    rfl
  · cases hquantize : Decimal.quantize? c exponent (-s) with
    | none => exact absurd hless (not_lt.mpr ((Decimal.quantize?_places hpos).mp hquantize))
    | some r =>
      obtain ⟨n, exact⟩ := r
      rw [hnode.scaled ht, hquantize] at hprepare
      cases exact with
      | false =>
        rw [Encoder.encodeRecord, hprepare]
        exact ⟨_, _, _, _, rfl⟩
      | true =>
        obtain ⟨hn, -⟩ := (Decimal.quantize?_whole hpos).mp hquantize
        have hrejected := hwrite n
        rw [Binary.unwrap, Binary.unscaled_rejected rfl rfl (hmisfits n hn)] at hrejected
        rw [Encoder.encodeRecord, hprepare]
        simp only [if_true, Except.map, Except.bind, Encoder.writeDatum, hrejected]
        exact ⟨_, _, _, _, rfl⟩
  · have hquantize := (Decimal.quantize?_whole hpos).mpr ⟨hn, hless⟩
    obtain ⟨bytes, sign, hbytes, hreads, hsign⟩ :=
      @Binary.reads_decimal p s n ⟨some p, some s⟩ rfl rfl hroom negative
    rw [← hwrite] at hbytes
    rw [hnode.scaled ht, hquantize] at hprepare
    refine ⟨bytes, sign, ?_, ?_, Decimal.worth_eq hn hsign⟩
    · rw [Encoder.encodeRecord, hprepare]
      simp only [if_true, Except.map, Encoder.writeDatum, hbytes]
    · have hsame : (n : ℚ) = n * 10 ^ (-s + s) := by rw [Int.add_left_neg, zpow_zero, mul_one]
      have hagain : Decimal.quantize? n (-s) (-s) = some ⟨n, true⟩ :=
        (Decimal.quantize?_whole hpos).mpr ⟨hsame, by rwa [← hsame, hn]⟩
      have hcoerced : coerce options' (Pointer.child Pointer.root field) (.obj ms)
          (.decimal (.finite sign n (-s))) = .ok (.decimal (.finite sign n (-s))) := by
        rw [coerce_decimal _ _ hnode.kind hnode.logical (show decimalOf? _ = some _ from rfl),
          hnode.scaled ht, hagain]
        rfl
      rw [← hnode.meaning] at hreads
      exact Decoder.decodeRecord_oneField hd hprimitive Value.noConfusion hreads hcoerced

/-- A field of forty digits has room for a number of thirty-one, which is not written. -/
theorem encodeRecord_decimal_many_digits :
    let coefficient : Nat := 1234567890123456789012345678901
    let type : Json := .obj [("type", .str "bytes"), ("logicalType", .str "decimal"),
      ("precision", .int 40), ("scale", .int 2)]
    let options := Options.standard "R" "" (List.replicate 16 7)
    ∃ e, Encoder.ofSchema options (Schema.oneField "R" "x" type) = .ok e ∧
      digitCount coefficient = 31 ∧
      e.encodeRecord (.struct [(.text "x", .decimal (.finite false coefficient (-2)))]) =
        .error .invalidOperation := by
  intro coefficient type options
  let schema := Schema.oneField "R" "x" type
  let layout : Layout := .record "R"
    [("x", none, .primitive .bytes (some (.decimal ⟨some 40, some 2⟩)))]
  have hlayout : Layout.ofSchema schema = .ok layout := by decide +kernel
  have hcheck : Schema.check schema = .ok (Schema.Registry.ofSchema schema) := by decide +kernel
  have he : Encoder.ofSchema options schema =
      .ok ⟨schema, Schema.Registry.ofSchema schema, layout, options⟩ :=
    Encoder.ofSchema_eq _ hcheck hlayout
  have hd : Decoder.ofSchema options (some schema) =
      .ok ⟨some (schema, Schema.Registry.ofSchema schema, layout), options⟩ :=
    Decoder.ofSchema_eq _ hcheck hlayout
  refine ⟨_, he, by decide, (encodeRecord_decimal (p := 40) (s := 2) ⟨rfl, rfl, rfl⟩
    (by decide) he hd rfl).1 ?_⟩
  norm_num [Decimal.workingLimit, Decimal.workingDigits, coefficient]

end decimal

end AvroDocument
