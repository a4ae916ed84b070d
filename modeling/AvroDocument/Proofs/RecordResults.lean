import AvroDocument.Proofs.FaithfulReading
import AvroDocument.Proofs.Walks

/-!
# AvroDocument.Proofs.RecordResults

The results of single records and of containers, and the failure that ends them.

* `scalarValue_raises`: a scalar that was read has a value, or does not fit, or is a decimal that
  decimal arithmetic cannot give the scale of its type.
* `toValue_raises`: so does every datum that was read with the layout of the schema.
* `recordResults_each`: each record has one result, which depends on its bytes and on where they start.
  Only such a decimal ends the results before the last record.
* `length_recordResults`: without decimal types nothing does.
* `results_raises`: likewise for the containers that carry the schema of the reader.
-/

namespace AvroDocument

open Schema (Typed)
open Decoding (FailsOnly)

/-! ## Scalars -/

/-- A datum that was read. If it is a number, decimal arithmetic can give it the scale of its type. -/
def Binary.Tractable : Binary.ScalarProperty := fun type meaning v =>
  Binary.Stored type meaning v ∧ ∀ t scale number f, meaning = some (.decimal t) →
    t.scale = some scale → v = .decimal number → ¬ Coercion.Unworkable scale number f

/-- A datum that was read. If it is a number, the scale of its type is not negative. -/
def Binary.Scaled : Binary.ScalarProperty := fun type meaning v =>
  Binary.Stored type meaning v ∧ ∀ t scale, meaning = some (.decimal t) →
    t.scale = some scale → 0 ≤ scale

/-- The layouts that a schema has when its types are all supported have no other scales. -/
theorem Binary.Shaped.scaled {types : Declarations} {l : Layout} {v : Value}
    (h : Shaped types Stored l v) (htypes : ∀ d ∈ types, d.2.Regular) (hl : l.Regular) :
    Shaped types Scaled l v := by
  induction h with
  | primitive hv =>
    cases hl with
    | primitive _ hscale => exact .primitive ⟨hv, hscale⟩
  | array _ ih =>
    cases hl with
    | array hitems => exact .array fun v hv => ih v hv hitems
  | union hmember _ ih =>
    cases hl with
    | union _ _ hmembers => exact .union hmember (ih (hmembers _ hmember))
  | record _ ih =>
    cases hl with
    | record _ hfields => exact .record fun f hf => ih f hf (hfields f hf)
  | reference hlookup _ ih =>
    exact .reference hlookup (ih (htypes _ (mem_of_lookup? hlookup)))

/-- At a scale that is not negative decimal arithmetic fails in one way. -/
theorem Coercion.Unworkable.of_nonneg {scale : Int} {number : Decimal} {f : Failure}
    (h : Coercion.Unworkable scale number f) (hscale : 0 ≤ scale) : f = .invalidOperation := by
  cases h with
  | large _ hlarge =>
    unfold Decimal.workingExponent at hlarge
    omega
  | _ => rfl

section scalar

variable {options : Options} {path : String} {node : Json} {type : Primitive}
  {meaning : Option Meaning} {v : Value} {f : Failure}

/-- The numbers that a decimal node breaks on. -/
theorem Coercion.Breaks.unworkable {negative : Bool} {c : Nat} {e scale : Int}
    (h : Coercion.Breaks options node (.decimal (.finite negative c e)) f)
    (hkind : Schema.typeName node = "bytes") (hscale : Coercion.scaleOf node = .ok scale) :
    Coercion.Unworkable scale (.finite negative c e) f := by
  cases h with
  | reading _ _ htext => cases htext
  | @converting w _ _ hread hobstacle =>
    obtain rfl : .decimal (.finite negative c e) = w := Except.ok.inj hread
    cases hobstacle with
    | scale _ _ _ hnone => cases hscale.symm.trans hnone
    | number _ _ hnumber hscale' hunworkable =>
      obtain rfl := Option.some.inj hnumber
      obtain rfl := Except.ok.inj (hscale.symm.trans hscale')
      exact hunworkable
    | object hstring => exact absurd (hkind.symm.trans hstring) (by decide)

/-- A scalar that was read with the layout of a node has a value there, or does not fit, or is a number
that decimal arithmetic cannot give the scale of its type. -/
theorem scalarValue_raises (hkind : Primitive.ofName? (Schema.typeName node) = some type)
    (hmeaning : (∃ name, node = .str name ∧ meaning = none) ∨
      ∃ ms, node = .obj ms ∧ meaning = Layout.meaning? type ms)
    (hstored : Binary.Stored type meaning v)
    (h : Decoding.scalarValue options path node v = .error f) :
    (∃ m, f = .mismatch m) ∨ ∃ t scale number, meaning = some (.decimal t) ∧
      t.scale = some scale ∧ v = .decimal number ∧ Coercion.Unworkable scale number f := by
  obtain hmismatch | ⟨t, rfl, -⟩ := (scalarValue_judged hkind hmeaning hstored).2 f h
  · exact .inl hmismatch
  obtain hmismatch | hbreaks := Reconciler.scalarValue_error h
  · exact .inl hmismatch
  obtain ⟨_, -, hnone⟩ | ⟨ms, rfl, hdecimal⟩ := hmeaning
  · cases hnone
  obtain ⟨rfl, -, rfl⟩ := Layout.meaning?_decimal hdecimal.symm
  obtain ⟨bytes, rest, plain, hread, hwrap⟩ := hstored
  obtain ⟨bs, rfl⟩ := Binary.readPlain_cases hread
  obtain ⟨scale, negative, c, k, hscale, rfl⟩ := Coercion.decimalOf?_places hwrap
  exact .inr ⟨_, scale, _, rfl, hscale, rfl,
    hbreaks.unworkable (Primitive.eq_name hkind) (Coercion.scaleOf_decimalType hscale)⟩

end scalar

/-! ## Data -/

section data

variable {P : Binary.ScalarProperty} {Q : Failure → Prop} {r : Reconciler} {schema node : Json}
  {l : Layout} {enclosing : String} {datum : Value}

/-- A datum of the type of a node fails there as the scalars in it do, or because it does not fit. -/
theorem valueNode_failsOnly (hr : r.registry = Schema.Registry.ofSchema schema)
    (hQ : ∀ m, Q (.mismatch m))
    (hscalar : ∀ path plain type meaning v, Primitive.ofName? (Schema.typeName plain) = some type →
      ((∃ name, plain = .str name ∧ meaning = none) ∨
        ∃ ms, plain = .obj ms ∧ meaning = Layout.meaning? type ms) →
      P type meaning v → FailsOnly Q (Decoding.scalarValue r.options path plain v))
    (h : Typed schema P enclosing node datum) (path : String) :
    FailsOnly Q (r.valueNode enclosing path node datum) := by
  induction h generalizing path with
  | scalar hresolve hplain _ hkind hmeaning hv =>
    rw [r.valueNode_resolved (hr ▸ hresolve) hplain, valueNode_primitive hplain hkind]
    exact hscalar path _ _ _ _ hkind hmeaning hv
  | array hresolve hplain hkind _ ih =>
    rw [r.valueNode_resolved (hr ▸ hresolve) hplain]
    exact Schema.failsOnly_array hplain hkind ih
  | union _ ih =>
    exact Schema.failsOnly_union hQ fun member hfind hnull => ih member hfind hnull path
  | record hresolve hplain _ hkind hfields hnames _ ih =>
    rw [r.valueNode_resolved (hr ▸ hresolve) hplain]
    refine Schema.failsOnly_record hQ hplain hkind fun f hf => ?_
    rw [hfields] at hf
    obtain ⟨p, hp, rfl⟩ := List.mem_map.mp hf
    rw [Schema.fieldValue_kept hnames hp rfl]
    exact ih p hp _

/-- A datum of the type of a schema has a value, or does not fit, or holds a number that decimal
arithmetic cannot give the scale of its type. -/
theorem toValue_raises (hr : r.registry = Schema.Registry.ofSchema r.schema)
    (htyped : Typed r.schema Binary.Scaled "" r.schema datum) {f : Failure}
    (h : r.toValue datum = .error f) :
    (∃ m, f = .mismatch m) ∨
      (f = .invalidOperation ∧ ¬ Typed r.schema Binary.Tractable "" r.schema datum) := by
  have hkinds : FailsOnly (fun f => (∃ m, f = .mismatch m) ∨ f = .invalidOperation)
      (r.toValue datum) := by
    refine valueNode_failsOnly hr (fun m => .inl ⟨m, rfl⟩) ?_ htyped _
    intro path plain type meaning v hkind hmeaning hv f hf
    refine (scalarValue_raises hkind hmeaning hv.1 hf).imp_right ?_
    rintro ⟨t, scale, number, ht, hscale, -, hunworkable⟩
    exact hunworkable.of_nonneg (hv.2 t scale ht hscale)
  obtain hmismatch | rfl := hkinds f h
  · exact .inl hmismatch
  refine .inr ⟨rfl, fun htractable => ?_⟩
  have hfits : FailsOnly (fun f => ∃ m, f = .mismatch m) (r.toValue datum) := by
    refine valueNode_failsOnly hr (fun m => ⟨m, rfl⟩) ?_ htractable _
    intro path plain type meaning v hkind hmeaning hv f hf
    refine (scalarValue_raises hkind hmeaning hv.1 hf).resolve_right ?_
    rintro ⟨t, scale, number, ht, hscale, hnumber, hunworkable⟩
    exact hv.2 t scale number f ht hscale hnumber hunworkable
  obtain ⟨m, hm⟩ := hfits _ h
  cases hm

/-- Without decimal types there is no such number. -/
theorem tractable_of_no_decimal
    (hnone : ∀ plain, Schema.TypeIn schema plain → Schema.logicalName? plain ≠ some "decimal")
    (h : Typed schema Binary.Stored enclosing node datum) :
    Typed schema Binary.Tractable enclosing node datum := by
  induction h with
  | scalar hresolve hplain hinside hkind hmeaning hstored =>
    refine .scalar hresolve hplain hinside hkind hmeaning ⟨hstored, fun t _ _ _ ht => ?_⟩
    obtain ⟨_, -, rfl⟩ | ⟨ms, rfl, rfl⟩ := hmeaning
    · cases ht
    · exact absurd (Layout.meaning?_decimal ht).2.1 (hnone _ hinside)
  | array hresolve hplain hkind _ ih => exact .array hresolve hplain hkind ih
  | union _ ih => exact .union ih
  | record hresolve hplain hinside hkind hfields hnames _ ih =>
    exact .record hresolve hplain hinside hkind hfields hnames ih

/-- What is read with the layout of a schema has its scales. -/
theorem scaled_of_read (hlayout : Layout.ofSchema schema = .ok l) (hregular : l.Regular)
    {bytes rest : List UInt8} (h : Binary.read l bytes = .ok (datum, rest)) :
    Typed schema Binary.Scaled "" schema datum := by
  obtain ⟨decls, hs⟩ :=
    Schema.sound_of_layout (Schema.hereditary_typeIn schema) .whole hlayout hregular
  exact Schema.typed_of_shaped hs (fun _ hv => hv.1)
    ((Binary.shaped_of_read hregular h).scaled hregular.declared hregular) hs.within

end data

/-! ## Results and where they start -/

/-- A failure of bytes that start at an offset. -/
def Failure.moved (offset : Nat) : Failure → Failure
  | .decoding position fault => .decoding (offset + position) fault
  | f => f

/-- A result of bytes that start at an offset. -/
def DecodeResult.moved (offset : Nat) (x : DecodeResult) : DecodeResult :=
  ⟨x.outcome.mapError (Failure.moved offset), offset + x.offset⟩

namespace Decoder

section records

variable {d : Decoder} {r : Reconciler} {f : Failure} {x : DecodeResult}

theorem reconcile_moved (r : Reconciler) (offset : Nat) (datum : Value) :
    reconcile r offset datum = (reconcile r 0 datum).map (DecodeResult.moved offset) := by
  unfold reconcile
  cases r.toValue datum with
  | ok v => rfl
  | error e =>
    cases e with
    | mismatch m => cases r.strict <;> rfl
    | _ => rfl

/-- What does not fit has a result; other failures end the sequence. -/
theorem reconcile_error {offset : Nat} {datum : Value} (h : reconcile r offset datum = .error f) :
    r.toValue datum = .error f ∧ ∀ m, f ≠ .mismatch m := by
  unfold reconcile at h
  split at h
  · cases h
  · split at h <;> cases h
  · rename_i e hother hvalue
    cases h
    exact ⟨hvalue, fun m => hother m⟩

/-- The result of a record depends on its bytes; the offset only moves it. -/
theorem recordResult_moved (d : Decoder) (offset : Nat) (bytes : List UInt8) :
    d.recordResult offset bytes = (d.recordResult 0 bytes).map (DecodeResult.moved offset) := by
  unfold recordResult
  cases d.schema with
  | none => rfl
  | some parts =>
    obtain ⟨schema, registry, layout⟩ := parts
    simp only
    cases Binary.read layout bytes with
    | error left => simp [Except.map, Except.mapError, DecodeResult.moved, Failure.moved]
    | ok result =>
      obtain ⟨datum, rest⟩ := result
      simp only
      split
      · exact reconcile_moved _ offset datum
      · simp [Except.map, Except.mapError, DecodeResult.moved, Failure.moved]

/-- Each result is that of the record in its place, which starts behind the ones before it. -/
theorem resultsFrom_item {records : List (List UInt8)} {offset i : Nat}
    (h : (d.resultsFrom offset records).items[i]? = some x) :
    ∃ bytes own, records[i]? = some bytes ∧ d.recordResult 0 bytes = .ok own ∧
      x = own.moved (offset + (records.take i).flatten.length) := by
  induction records generalizing offset i with
  | nil => cases h
  | cons bytes records ih =>
    rw [resultsFrom, recordResult_moved] at h
    cases hown : d.recordResult 0 bytes with
    | error e =>
      rw [hown] at h
      cases h
    | ok own =>
      rw [hown] at h
      cases i with
      | zero =>
        obtain rfl := Option.some.inj h
        exact ⟨bytes, own, rfl, hown, rfl⟩
      | succ i =>
        obtain ⟨bytes', own', hbytes, hown', rfl⟩ := ih h
        refine ⟨bytes', own', hbytes, hown', ?_⟩
        rw [List.take_succ_cons, List.flatten_cons, List.length_append, Nat.add_assoc]

/-- Every record has a result, or a failure ends the results at the record that it comes from. -/
theorem resultsFrom_failure (d : Decoder) (records : List (List UInt8)) (offset : Nat) :
    match (d.resultsFrom offset records).failure with
    | none => (d.resultsFrom offset records).items.length = records.length
    | some f => ∃ bytes, records[(d.resultsFrom offset records).items.length]? = some bytes ∧
        d.recordResult 0 bytes = .error f := by
  induction records generalizing offset with
  | nil => rfl
  | cons bytes records ih =>
    rw [resultsFrom, recordResult_moved]
    cases hown : d.recordResult 0 bytes with
    | error e => exact ⟨bytes, rfl, hown⟩
    | ok own =>
      have hrest := ih (offset + bytes.length)
      simp only [Except.map, Feed.cons, Feed.items, Feed.itemsOf, List.length_cons,
        Nat.add_right_cancel_iff, List.getElem?_cons_succ] at hrest ⊢
      exact hrest

end records

section supplied

variable {options : Options} {schema : Json} {d : Decoder} {f : Failure}

/-- A record of a reader with a schema has a result, unless it holds a number that decimal arithmetic
cannot give the scale of its type. -/
theorem recordResult_raises (hd : Decoder.ofSchema options (some schema) = .ok d) {offset : Nat}
    {bytes : List UInt8} (h : d.recordResult offset bytes = .error f) :
    f = .invalidOperation ∧ ∃ layout datum, Layout.ofSchema schema = .ok layout ∧
      Binary.read layout bytes = .ok (datum, []) ∧ ¬ Typed schema Binary.Tractable "" schema datum := by
  obtain ⟨layout, -, hlayout, hregular, rfl⟩ := ofSchema_parts hd
  rw [recordResult] at h
  simp only at h
  split at h
  · cases h
  rename_i datum rest hread
  split at h
  · rename_i hrest
    obtain rfl := List.isEmpty_iff.mp hrest
    obtain ⟨hvalue, hfits⟩ := reconcile_error h
    obtain ⟨m, rfl⟩ | ⟨rfl, hintractable⟩ :=
      toValue_raises rfl (scaled_of_read hlayout hregular hread) hvalue
    · exact absurd rfl (hfits m)
    · exact ⟨rfl, layout, datum, hlayout, hread, hintractable⟩
  · cases h

/-- A reader with a schema gives one result for each of some records, which depends on the bytes of the
record alone and is moved to where they start, behind the records before it. It ends before the last
record only at a number that decimal arithmetic cannot give the scale of its type. -/
theorem recordResults_each (hd : Decoder.ofSchema options (some schema) = .ok d)
    (records : List (List UInt8)) :
    (∀ (i : Nat) x, (d.recordResults records).items[i]? = some x →
      ∃ bytes own, records[i]? = some bytes ∧ d.recordResult 0 bytes = .ok own ∧
        x = own.moved (records.take i).flatten.length) ∧
      ((d.recordResults records).failure = none →
        (d.recordResults records).items.length = records.length) ∧
      ∀ f, (d.recordResults records).failure = some f →
        f = .invalidOperation ∧ ∃ layout bytes datum, Layout.ofSchema schema = .ok layout ∧
          records[(d.recordResults records).items.length]? = some bytes ∧
          Binary.read layout bytes = .ok (datum, []) ∧
          ¬ Typed schema Binary.Tractable "" schema datum := by
  have hfailure := resultsFrom_failure d records 0
  refine ⟨fun i x hx => ?_, fun hnone => ?_, fun f hf => ?_⟩
  · obtain ⟨bytes, own, hbytes, hown, rfl⟩ := resultsFrom_item hx
    exact ⟨bytes, own, hbytes, hown, by rw [Nat.zero_add]⟩
  · rw [recordResults] at hnone ⊢
    rwa [hnone] at hfailure
  · rw [recordResults] at hf ⊢
    rw [hf] at hfailure
    obtain ⟨bytes, hbytes, hraised⟩ := hfailure
    obtain ⟨rfl, layout, datum, hlayout, hread, hintractable⟩ := recordResult_raises hd hraised
    exact ⟨rfl, layout, bytes, datum, hlayout, hbytes, hread, hintractable⟩

/-- A reader whose schema has no decimal types gives one result for each record. -/
theorem length_recordResults (hd : Decoder.ofSchema options (some schema) = .ok d)
    (hnone : ∀ plain, Schema.TypeIn schema plain → Schema.logicalName? plain ≠ some "decimal")
    (records : List (List UInt8)) :
    (d.recordResults records).failure = none ∧
      (d.recordResults records).items.length = records.length := by
  obtain ⟨-, hlength, hraises⟩ := recordResults_each hd records
  suffices hfailure : (d.recordResults records).failure = none from ⟨hfailure, hlength hfailure⟩
  cases hfailure : (d.recordResults records).failure with
  | none => rfl
  | some f =>
    obtain ⟨-, layout, bytes, datum, hlayout, -, hread, hintractable⟩ := hraises f hfailure
    obtain ⟨layout', -, hlayout', hregular, -⟩ := ofSchema_parts hd
    obtain rfl := Except.ok.inj (hlayout.symm.trans hlayout')
    exact absurd
      (tractable_of_no_decimal hnone (Schema.typed_of_read hlayout hregular hread)) hintractable

/-! ## Containers -/

open Container (dataOf)

/-- A reader takes the containers that carry its own schema, be it strict or not. -/
theorem checkHeader_self (hd : Decoder.ofSchema options (some schema) = .ok d) (htidy : schema.Tidy)
    {header : Container.Header} (hheader : header.schema = schema) : d.checkHeader header = .ok () := by
  obtain ⟨layout, hcheck, hlayout, -, rfl⟩ := ofSchema_parts hd
  unfold checkHeader
  simp only
  split
  · rw [hheader, checkCompatible_self htidy hcheck hlayout]
  · rfl

/-- A reader gives a result for each datum of a container that carries its schema, unless a number that
decimal arithmetic cannot give the scale of its type ends the results. -/
theorem results_raises (hd : Decoder.ofSchema options (some schema) = .ok d) (htidy : schema.Tidy)
    {bytes rest : List UInt8} {header : Container.Header}
    (hread : Container.readHeader? bytes = some (header, rest)) (hheader : header.schema = schema)
    (hcodec : Container.codecs.contains header.codec = true)
    (h : (d.results true bytes).failure = some f) :
    f = .invalidOperation ∧ ∃ datum,
      (dataOf header rest.length rest)[(d.results true bytes).items.length]? = some datum ∧
        ¬ Typed schema Binary.Tractable "" schema datum := by
  have hanswers := results_answers hread (checkHeader_self hd htidy hheader) hcodec
  rw [h] at hanswers
  obtain ⟨datum, offset, hdatum, hraised⟩ := hanswers.raises
  obtain ⟨layout, -, hlayout, hregular, rfl⟩ := ofSchema_parts hd
  have hlayout' := layout_of_readHeader? hread
  rw [hheader, hlayout] at hlayout'
  obtain rfl := Except.ok.inj hlayout'
  obtain ⟨front, back, hstored⟩ := Container.read_of_dataOf (List.mem_of_getElem? hdatum)
  obtain ⟨hvalue, hfits⟩ := reconcile_error hraised
  obtain ⟨m, rfl⟩ | ⟨rfl, hintractable⟩ :=
    toValue_raises rfl (scaled_of_read hlayout hregular hstored) hvalue
  · exact absurd rfl (hfits m)
  · exact ⟨rfl, datum, hdatum, hintractable⟩

end supplied

end Decoder

end AvroDocument
