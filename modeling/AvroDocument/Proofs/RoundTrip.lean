import AvroDocument.Proofs.Agreement
import AvroDocument.Proofs.Containers
import AvroDocument.Proofs.Reconciliation
import AvroDocument.Proofs.View

/-!
# AvroDocument.Proofs.RoundTrip

Documents come back from a container written with their inferred schema.

* `encode_documents`: the container of documents that are all prepared and written.
* `decode_encode_inferred`: reading it gives the view of every document under the schema, in order.
-/

namespace AvroDocument

/-! ## Sequences -/

namespace Feed

theorem itemsOf_map {α : Type} (as : List α) : itemsOf (as.map .item) = as := by
  induction as with
  | nil => rfl
  | cons a as ih => rw [List.map_cons, itemsOf, ih]

theorem warningsOf_map {α : Type} (as : List α) : warningsOf (as.map .item) = [] := by
  induction as with
  | nil => rfl
  | cons a as ih => rw [List.map_cons, warningsOf, ih]

theorem mapItems_ofList {α β γ : Type} {as : List α} {datum : α → β} {bytes : α → γ}
    {f : β → Except Failure γ} (h : ∀ a ∈ as, f (datum a) = .ok (bytes a)) :
    (ofList (as.map datum)).mapItems f = ofList (as.map bytes) := by
  rw [mapItems, ofList, ofList]
  induction as with
  | nil => rfl
  | cons a as ih =>
    simp only [List.map_cons, mapSteps, h a List.mem_cons_self,
      ih fun b hb => h b (List.mem_cons_of_mem _ hb)]
    rfl

end Feed

/-! ## Containers of documents -/

namespace Encoder

variable {e : Encoder} {docs : List Value} {datum : Value → Value} {bytes : Value → List UInt8}

theorem prepared_documents (h : ∀ d ∈ docs, e.prepare d = .ok (datum d)) :
    e.prepared docs = Feed.ofList (docs.map datum) := by
  have hfrom : ∀ index, e.preparedFrom index docs = Feed.ofList (docs.map datum) := by
    induction docs with
    | nil => exact fun _ => rfl
    | cons d docs ih =>
      intro index
      rw [preparedFrom, h d List.mem_cons_self]
      simp only [ih fun b hb => h b (List.mem_cons_of_mem _ hb)]
      rfl
  exact hfrom 0

/-- The container of documents that are all prepared and written. -/
theorem encode_documents (hc : Container.codecs.contains e.options.codec = true)
    (hp : ∀ d ∈ docs, e.prepare d = .ok (datum d))
    (hw : ∀ d ∈ docs, Binary.write e.layout (datum d) = .ok (bytes d)) :
    e.encode docs =
      let out := Container.fullBlocks e.options.syncInterval e.options.syncMarker {}
        (docs.map bytes)
      ⟨Container.header e.schema e.options.codec e.options.syncMarker ++
        (out.1 ++ out.2.flush e.options.syncMarker), [], .ok docs.length⟩ := by
  have hrecords : (e.prepared docs).mapItems (fun datum =>
      (Binary.write e.layout datum).mapError Encoding.writeFailure) =
        Feed.ofList (docs.map bytes) := by
    rw [prepared_documents hp]
    refine Feed.mapItems_ofList fun d hd => ?_
    rw [hw d hd]
    rfl
  have hitems : (Feed.ofList (docs.map bytes)).items = docs.map bytes := Feed.itemsOf_map _
  have hwarnings : (Feed.ofList (docs.map bytes)).warnings = [] := Feed.warningsOf_map _
  have hfailure : (Feed.ofList (docs.map bytes)).failure = none := rfl
  rw [encode, hc, if_neg (by decide)]
  simp only [hrecords, hitems, hwarnings, hfailure, List.length_map, List.append_assoc]

end Encoder

/-! ## Documents -/

namespace Inference

variable {docs : List Value} {typeName namespaceName : String}

/-- The decoder of an inferred schema. -/
def decoderOf (job : Options) (typeName namespaceName : String) (docs : List Value) : Decoder :=
  let o := outlineOf typeName namespaceName docs
  let schema := o.finished job.altNamesKey
  ⟨some (schema, Schema.Registry.ofSchema schema, o.layout (recordNames o.sites)), job⟩

theorem decoder_ofSchema (hd : ∀ d ∈ docs, Supported d) (job : Options) :
    Decoder.ofSchema job (some ((outlineOf typeName namespaceName docs).finished job.altNamesKey)) =
      .ok (decoderOf job typeName namespaceName docs) := by
  rw [Decoder.ofSchema, check_finished hd, layout_finished hd]
  rfl

/-- The stored datum of a document is reconciled to the view of the document. -/
theorem toValue_document {doc : Value}
    (ha : Admits (outlineOf typeName namespaceName docs) false doc)
    (hd : ∀ d ∈ docs, Supported d) {r : Reconciler}
    (hr : r.schema = (outlineOf typeName namespaceName docs).finished r.options.altNamesKey) :
    r.toValue ((outlineOf typeName namespaceName docs).image (·.name) storedScalar doc) =
      .ok (Schema.view r.options.altNamesKey r.schema doc) := by
  have hv := valid_of_outlined (outlined_outlineOf hd typeName namespaceName)
  rw [Reconciler.toValue, hr, Outline.finished, view_admits ha hv]
  exact value_admits ha hv _ _

/-- The container of documents is read back as their views. -/
theorem decode_encode (job : Options) (hd : ∀ d ∈ docs, Countable d)
    (hk : ∀ d ∈ docs, DistinctKeys d) (hi : ∀ d ∈ docs, ReadableIntegers d)
    (hc : ∀ d ∈ docs, InCalendar d)
    (hcodec : Container.codecs.contains job.codec = true) (hs : job.syncMarker.length = 16)
    (hstrict : job.strictUnknownFields = false) :
    let e := encoderOf job typeName namespaceName docs
    let d := decoderOf job typeName namespaceName docs
    (e.encode docs).outcome = .ok docs.length ∧
      d.decode true (e.encode docs).bytes =
        Feed.ofList (docs.map (Schema.view job.altNamesKey e.schema)) := by
  intro e d
  have hsupported : ∀ d ∈ docs, Supported d := fun d h => (hd d h).2
  have ho := outlined_outlineOf hsupported typeName namespaceName
  have hadmits : ∀ doc ∈ docs, Admits (outlineOf typeName namespaceName docs) false doc :=
    fun doc hdoc => admits_document hd hk hdoc
  have hchosen : ∀ doc, ∃ bytes, doc ∈ docs →
      Binary.Writes e.layout ((outlineOf typeName namespaceName docs).image (·.name) plainScalar doc)
        bytes ∧ Binary.Reads e.layout bytes
          ((outlineOf typeName namespaceName docs).image (·.name) storedScalar doc) := by
    intro doc
    by_cases hdoc : doc ∈ docs
    · obtain ⟨bytes, hwrites, hreads⟩ := keeps_document (hadmits doc hdoc) hsupported
      exact ⟨bytes, fun _ => ⟨hwrites, hreads (hc doc hdoc)⟩⟩
    · exact ⟨[], fun hdoc' => absurd hdoc' hdoc⟩
  obtain ⟨bytes, hbytes⟩ := Classical.axiomOfChoice hchosen
  have hencode := Encoder.encode_documents (e := e) hcodec
    (fun doc hdoc => prepare_document (hadmits doc hdoc) hsupported (hi doc hdoc))
    fun doc hdoc => (hbytes doc hdoc).1.write_eq
  have htidy : e.schema.Tidy := Outline.tidy_schema (valid_of_outlined ho) _ _
  have hlayout : Layout.ofSchema e.schema = .ok e.layout := layout_finished hsupported _ _ _
  have hcheck : ∀ header, d.checkHeader header = .ok () := by
    intro header
    exact if_neg (by rw [show d.options.strictUnknownFields = false from hstrict]; decide)
  rw [hencode]
  refine ⟨rfl, ?_⟩
  rw [Decoder.decode, show e.options = job from rfl]
  simp only
  rw [d.results_header htidy hlayout hcodec hs (hcheck _)]
  exact d.documents_of_delivers <| Decoder.blocksOf_records hs rfl
    (fun doc hdoc => (hbytes doc hdoc).2.holds)
    (fun doc hdoc => toValue_document (hadmits doc hdoc) hsupported rfl) job.syncInterval

end Inference

open Inference

/-- Documents without too long an integer are inferred from, written and read back with the options that
a job has when it sets no others: what comes back is the view of every document under the inferred
schema, in order. -/
theorem decode_encode_inferred (typeName namespaceName : String) {marker : List UInt8}
    (hmarker : marker.length = 16) {docs : List Value} (hne : docs ≠ [])
    (hd : ∀ d ∈ docs, d.IsStruct ∧ Supported d ∧ DistinctKeys d ∧ ReadableIntegers d ∧ InCalendar d) :
    ∃ options schema e d,
      Options.ofSettings { typeName, namespaceName, syncMarker := marker } = .ok options ∧
      inferSchema options docs = .ok schema ∧
      Encoder.ofSchema options schema = .ok e ∧
      Decoder.ofSchema options (some schema) = .ok d ∧
      (e.encode docs).outcome = .ok docs.length ∧
      d.decode true (e.encode docs).bytes =
        Feed.ofList (docs.map (Schema.view options.altNamesKey schema)) := by
  have hcount : ∀ d ∈ docs, Countable d := fun d h => ⟨(hd d h).1, (hd d h).2.1⟩
  have hsupported : ∀ d ∈ docs, Supported d := fun d h => (hd d h).2.1
  have hcodec : Container.codecs.contains "null" = true := by decide
  exact ⟨_, _, _, _, ofSettings_standard typeName namespaceName hmarker,
    (inferSchema_ok_iff rfl).mpr ⟨hne, hcount, rfl⟩, encoder_ofSchema hsupported _,
    decoder_ofSchema hsupported _,
    decode_encode (Options.standard typeName namespaceName marker) hcount
      (fun d h => (hd d h).2.2.1) (fun d h => (hd d h).2.2.2.1) (fun d h => (hd d h).2.2.2.2) hcodec
      hmarker rfl⟩

/-- Two documents with a widened key, a missing one, a tuple, bytes of the other kind and an instant
one hour east of UTC. -/
theorem decode_encode_widened :
    let instant : Timestamp := ⟨63000000000000000, by decide, some ⟨3600000000, by decide⟩⟩
    let docs := [Value.struct [(.text "a b", .int 1), (.text "t", .timestamp instant)],
      .struct [(.text "a b", .text "x"), (.text "l", .tuple [.null, .byteArray [1, 2]])]]
    ∃ options schema e d,
      Options.ofSettings { typeName := "Document", syncMarker := List.replicate 16 7 } =
        .ok options ∧
      inferSchema options docs = .ok schema ∧
      Encoder.ofSchema options schema = .ok e ∧
      Decoder.ofSchema options (some schema) = .ok d ∧
      (e.encode docs).outcome = .ok docs.length ∧
      d.decode true (e.encode docs).bytes =
        Feed.ofList (docs.map (Schema.view options.altNamesKey schema)) :=
  decode_encode_inferred "Document" "" (by decide) (List.cons_ne_nil _ _) (by decide)

end AvroDocument
