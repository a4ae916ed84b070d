import AvroDocument.Proofs.ContainerPath

/-!
# AvroDocument.Proofs.Framing

Single records have no length of their own: their bytes alone say where they end.

* `Binary.read_cut`: bytes that stop inside a datum hold no datum.
* `Decoder.decodeRecord_cut`, `Decoder.decodeRecord_trailing`: what a decoder makes of too few bytes
  and of too many.
* `decodeRecord_framed`: for every record that was written and is decoded.
-/

namespace AvroDocument

/-- A datum takes all its bytes: what stops before the last of them is not read. -/
theorem Binary.read_cut {layout : Layout} {front bytes : List UInt8} {v : Value}
    (h : read layout bytes = .ok (v, [])) (hfront : front <+: bytes) (hne : front ≠ bytes) :
    ∃ left, read layout front = .error left := by
  cases hread : read layout front with
  | error left => exact ⟨left, rfl⟩
  | ok result =>
    obtain ⟨v', rest⟩ := result
    obtain ⟨missing, rfl⟩ := hfront
    obtain ⟨body, rfl, hmore⟩ := read_extent hread
    -- With the missing bytes behind it the same datum is read, and they are left over.
    have hwhole := hmore (rest ++ missing) (by rw [List.length_append]; omega)
    rw [← List.append_assoc, h, Except.ok.injEq, Prod.mk.injEq] at hwhole
    have hmissing : missing = [] := (List.append_eq_nil_iff.mp hwhole.2.symm).2
    rw [hmissing, List.append_nil] at hne
    exact absurd rfl hne

namespace Decoder

variable {options : Options} {schema : Json} {registry : Schema.Registry} {layout : Layout}
  {bytes : List UInt8} {stored : Value}

/-- A record that is cut off is a failure to decode. -/
theorem decodeRecord_cut (hread : Binary.read layout bytes = .ok (stored, [])) {front : List UInt8}
    (hfront : front <+: bytes) (hne : front ≠ bytes) :
    ∃ consumed ≤ front.length,
      Decoder.decodeRecord ⟨some (schema, registry, layout), options⟩ front =
        .error (.decoding consumed .badRecord) := by
  obtain ⟨left, hleft⟩ := Binary.read_cut hread hfront hne
  refine ⟨front.length - left.length, Nat.sub_le _ _, ?_⟩
  rw [Decoder.decodeRecord, Decoder.recordResult]
  simp only [hleft, Nat.zero_add]

/-- A record with bytes behind it is a failure to decode, at the first of these bytes. -/
theorem decodeRecord_trailing (hholds : Binary.Holds layout bytes stored) {tail : List UInt8}
    (hne : tail ≠ []) :
    Decoder.decodeRecord ⟨some (schema, registry, layout), options⟩ (bytes ++ tail) =
      .error (.decoding bytes.length (.trailingBytes tail.length)) := by
  have hempty : tail.isEmpty = false := by simpa using hne
  have hconsumed : (bytes ++ tail).length - tail.length = bytes.length := by
    rw [List.length_append, Nat.add_sub_cancel]
  rw [Decoder.decodeRecord, Decoder.recordResult]
  simp only [hholds tail, hempty, hconsumed, Bool.false_eq_true, if_false, Nat.zero_add]

end Decoder

/-- The record of a document that is written and decoded is decoded neither without its last bytes nor
with more bytes behind it. What is too much starts where the record ends. -/
theorem decodeRecord_framed {options options' : Options} {schema : Json} {e : Encoder}
    (he : Encoder.ofSchema options schema = .ok e) {d : Decoder}
    (hd : Decoder.ofSchema options' (some schema) = .ok d) {doc v : Value}
    (hdoc : (e.encodeRecord doc >>= d.decodeRecord) = .ok v) :
    ∃ bytes, e.encodeRecord doc = .ok bytes ∧
      (∀ front, front <+: bytes → front ≠ bytes → ∃ consumed ≤ front.length,
        d.decodeRecord front = .error (.decoding consumed .badRecord)) ∧
      ∀ tail, tail ≠ [] → d.decodeRecord (bytes ++ tail) =
        .error (.decoding bytes.length (.trailingBytes tail.length)) := by
  obtain ⟨layout, hcheck, hlayout, -, -⟩ := Encoder.ofSchema_parts he
  obtain rfl := Decoder.ofSchema_some hcheck hlayout hd
  cases hencode : e.encodeRecord doc with
  | error f =>
    rw [hencode] at hdoc
    cases hdoc
  | ok bytes =>
    rw [hencode] at hdoc
    obtain ⟨stored, hread, -⟩ := Decoder.decodeRecord_ok hdoc
    exact ⟨bytes, rfl, fun front hfront hne => Decoder.decodeRecord_cut hread hfront hne,
      fun tail hne => Decoder.decodeRecord_trailing (Binary.holds_of_read hread) hne⟩

/-- A document with a list of nulls, whose items take no bytes, and a text. -/
theorem decodeRecord_framed_list :
    let doc := Value.struct [(.text "l", .list [.null, .null]), (.text "t", .text "é")]
    ∃ options schema e d v,
      Encoder.ofSchema options schema = .ok e ∧ Decoder.ofSchema options (some schema) = .ok d ∧
      (e.encodeRecord doc >>= d.decodeRecord) = .ok v ∧
      ∃ bytes, e.encodeRecord doc = .ok bytes ∧
        (∀ front, front <+: bytes → front ≠ bytes → ∃ consumed ≤ front.length,
          d.decodeRecord front = .error (.decoding consumed .badRecord)) ∧
        ∀ tail, tail ≠ [] → d.decodeRecord (bytes ++ tail) =
          .error (.decoding bytes.length (.trailingBytes tail.length)) := by
  intro doc
  have hdocs : ∀ d ∈ [doc], d.IsStruct ∧ Supported d ∧ DistinctKeys d ∧ ReadableIntegers d ∧
    InCalendar d := by decide
  obtain ⟨options, schema, e, d, value, -, -, he, hd, hvalue⟩ := Inference.records_inferred
    "Document" "" (show (List.replicate 16 7).length = 16 by decide) hdocs
  have hdoc := hvalue doc List.mem_cons_self
  exact ⟨options, schema, e, d, _, he, hd, hdoc, decodeRecord_framed he hd hdoc⟩

end AvroDocument
