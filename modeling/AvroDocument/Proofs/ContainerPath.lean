import AvroDocument.Proofs.Containers
import AvroDocument.Proofs.Defaults
import AvroDocument.Proofs.RoundTrip
import AvroDocument.Proofs.SelfComparison
import AvroDocument.Proofs.Steps

/-!
# AvroDocument.Proofs.ContainerPath

Documents in a container are read as they are read one by one.

* `Reconciler.valueNode_lenient`: what a strict reader makes of a datum, a lenient one makes of it too.
* `decode_encode_records`: a container gives back what its records give on their own, to a reader with
  the schema and to one without.
-/

namespace AvroDocument

namespace Reconciler

/-- The same reader, which lets fields and types pass that it does not know. -/
def lenient (r : Reconciler) : Reconciler := { r with strict := false }

mutual

theorem valueNode_lenient {r : Reconciler} {enclosing path : String} {schema : Json}
    {datum v : Value} (h : r.valueNode enclosing path schema datum = .ok v) :
    r.lenient.valueNode enclosing path schema datum = .ok v := by
  by_cases hnode : ∀ members, schema ≠ .arr members
  · rw [valueNode_other hnode] at h ⊢
    rw [show r.lenient.registry = r.registry from rfl]
    cases hresolve : r.registry.resolve schema enclosing with
    | error e =>
      rw [hresolve] at h
      cases h
    | ok result =>
      obtain ⟨plain, inner⟩ := result
      rw [hresolve] at h
      simp only [valuePlain] at h ⊢
      split at h
      · rename_i hkind
        rw [if_pos hkind]
        cases hdatum : datum with
        | struct entries =>
          rw [hdatum] at h
          simp only at h ⊢
          cases hfields : r.valueFields inner path [] (Schema.fieldsOf plain) entries with
          | error e =>
            rw [hfields] at h
            cases h
          | ok value =>
            rw [hfields] at h
            simp only at h
            have hvalue : v = .struct value := by
              split at h
              · split at h
                · cases h
                · exact (Except.ok.inj h).symm
              · exact (Except.ok.inj h).symm
            rw [valueFields_lenient hfields, hvalue]
            rfl
        | _ =>
          rw [hdatum] at h
          cases h
      rename_i hrecord
      rw [if_neg hrecord]
      split at h
      · rename_i hkind
        rw [if_pos hkind]
        cases hdatum : datum with
        | list vs =>
          rw [hdatum] at h
          simp only at h ⊢
          cases hitems : r.valueItems inner path 0 (Schema.itemsOf plain) vs with
          | error e =>
            rw [hitems] at h
            cases h
          | ok values =>
            rw [hitems] at h
            rw [valueItems_lenient hitems]
            exact h
        | _ =>
          rw [hdatum] at h
          cases h
      rename_i harray
      rw [if_neg harray]
      split at h
      · rename_i hopaque
        rw [if_pos hopaque]
        split at h
        · cases h
        · exact h
      · rename_i hopaque
        rw [if_neg hopaque]
        exact h
  · obtain ⟨members, hmembers⟩ := Classical.not_forall_not.mp hnode
    rw [hmembers, valueNode_union] at h ⊢
    split at h
    · rename_i hnull
      rw [if_pos hnull]
      exact h
    · rename_i hnull
      rw [if_neg hnull]
      cases hfind : members.find? fun m => !Schema.isNullMember m with
      | none =>
        rw [hfind] at h
        cases h
      | some member =>
        rw [hfind] at h
        exact valueNode_lenient h
termination_by (sizeOf datum, sizeOf schema)
decreasing_by
  · apply Prod.Lex.left
    rw [hdatum]
    exact Value.sizeOf_lt_of_items? rfl
  · apply Prod.Lex.left
    rw [hdatum]
    exact Value.sizeOf_lt_struct _
  · rw [hmembers]
    exact Prod.Lex.right _ (Json.sizeOf_lt_of_find? hfind)

theorem valueItems_lenient {r : Reconciler} {enclosing path : String} {index : Nat} {items : Json}
    {vs values : List Value} (h : r.valueItems enclosing path index items vs = .ok values) :
    r.lenient.valueItems enclosing path index items vs = .ok values := by
  match vs with
  | [] =>
    rw [valueItems] at h ⊢
    exact h
  | v :: vs =>
    rw [valueItems] at h ⊢
    cases hvalue : r.valueNode enclosing (Pointer.item path index) items v with
    | error e =>
      rw [hvalue] at h
      cases h
    | ok value =>
      rw [hvalue] at h
      rw [valueNode_lenient hvalue]
      simp only at h ⊢
      cases hrest : r.valueItems enclosing path (index + 1) items vs with
      | error e =>
        rw [hrest] at h
        cases h
      | ok rest =>
        rw [hrest] at h
        rw [valueItems_lenient hrest]
        exact h
termination_by (sizeOf vs, 0)
decreasing_by
  all_goals
    apply Prod.Lex.left
    simp only [List.cons.sizeOf_spec]
    omega

theorem valueFields_lenient {r : Reconciler} {enclosing path : String}
    {taken values : List (Key × Value)} {fields : List Json} {entries : List (Key × Value)}
    (h : r.valueFields enclosing path taken fields entries = .ok values) :
    r.lenient.valueFields enclosing path taken fields entries = .ok values := by
  match fields with
  | [] =>
    rw [valueFields] at h ⊢
    exact h
  | field :: fields =>
    have hoptions : r.lenient.options = r.options := rfl
    rw [valueFields_cons] at h ⊢
    cases hfield : r.fieldValue enclosing path entries field with
    | error e =>
      rw [hfield] at h
      cases h
    | ok value =>
      have hlenient : r.lenient.fieldValue enclosing path entries field = .ok value := by
        rw [fieldValue] at hfield ⊢
        rw [hoptions]
        cases hsource : Decoding.sourceName? entries field with
        | none =>
          rw [hsource] at hfield
          exact hfield
        | some source =>
          rw [hsource] at hfield
          simp only at hfield ⊢
          cases hmember : Value.member? source entries with
          | none =>
            rw [hmember] at hfield
            exact hfield
          | some v =>
            rw [hmember] at hfield
            exact valueNode_lenient hfield
      rw [hfield] at h
      rw [hlenient, hoptions]
      exact valueFields_lenient h
termination_by (sizeOf entries, sizeOf fields)
decreasing_by
  · exact Prod.Lex.left _ _ (Value.sizeOf_lt_of_member? hmember)
  · apply Prod.Lex.right
    simp only [List.cons.sizeOf_spec]
    omega

end

end Reconciler

/-! ## Records on their own -/

theorem Encoder.ofSchema_parts {options : Options} {schema : Json} {e : Encoder}
    (h : Encoder.ofSchema options schema = .ok e) :
    ∃ layout, Schema.check schema = .ok (Schema.Registry.ofSchema schema) ∧
      Layout.ofSchema schema = .ok layout ∧ layout.Regular ∧
      e = ⟨schema, Schema.Registry.ofSchema schema, layout, options⟩ := by
  unfold Encoder.ofSchema at h
  split at h
  · cases h
  · rename_i registry hcheck
    split at h
    · cases h
    · rename_i layout hlayout
      cases h
      obtain ⟨rfl, hregular⟩ := Schema.regular_of_check hcheck hlayout
      exact ⟨layout, hcheck, hlayout, hregular, rfl⟩

/-- The bytes of a record are those of a datum that it is prepared to. -/
theorem Encoder.encodeRecord_ok {e : Encoder} {doc : Value} {bytes : List UInt8}
    (h : e.encodeRecord doc = .ok bytes) :
    ∃ datum, e.prepare doc = .ok datum ∧ Binary.write e.layout datum = .ok bytes := by
  unfold Encoder.encodeRecord at h
  split at h
  · cases h
  · rename_i datum hprepare
    refine ⟨datum, hprepare, ?_⟩
    rw [Encoder.writeDatum] at h
    split at h
    · rename_i bytes' hwrite
      cases h
      exact hwrite
    · cases h
    · cases h

theorem Decoder.ofSchema_some {options : Options} {schema : Json} {d : Decoder}
    {registry : Schema.Registry} {layout : Layout} (hcheck : Schema.check schema = .ok registry)
    (hlayout : Layout.ofSchema schema = .ok layout)
    (h : Decoder.ofSchema options (some schema) = .ok d) :
    d = ⟨some (schema, registry, layout), options⟩ := by
  rw [Decoder.ofSchema] at h
  simp only [hcheck, hlayout] at h
  exact (Except.ok.inj h).symm

/-- The document of a record is what its datum is reconciled to. -/
theorem Decoder.decodeRecord_ok {options : Options} {schema : Json} {registry : Schema.Registry}
    {layout : Layout} {bytes : List UInt8} {v : Value}
    (h : Decoder.decodeRecord ⟨some (schema, registry, layout), options⟩ bytes = .ok v) :
    ∃ stored, Binary.read layout bytes = .ok (stored, []) ∧
      Reconciler.toValue ⟨schema, registry, options, options.strictUnknownFields⟩ stored =
        .ok v := by
  rw [Decoder.decodeRecord, Decoder.recordResult] at h
  simp only at h
  split at h
  · cases h
  rename_i result hresult
  split at hresult
  · cases hresult
    cases h
  · rename_i stored rest hread
    split at hresult
    · rename_i hrest
      obtain rfl := List.isEmpty_iff.mp hrest
      refine ⟨stored, hread, ?_⟩
      rw [Decoder.reconcile] at hresult
      split at hresult
      · rename_i v' hvalue
        cases hresult
        cases h
        exact hvalue
      · split at hresult <;>
        · cases hresult
          cases h
      · cases hresult
    · cases hresult
      cases h

/-- A record holds the datum that stands for a document. -/
theorem Decoder.decodeRecord_holds {options : Options} {schema : Json} {registry : Schema.Registry}
    {layout : Layout} {bytes : List UInt8} {stored v : Value}
    (hread : Binary.Holds layout bytes stored)
    (hvalue : Reconciler.toValue ⟨schema, registry, options, options.strictUnknownFields⟩ stored =
      .ok v) :
    Decoder.decodeRecord ⟨some (schema, registry, layout), options⟩ bytes = .ok v := by
  have hread' := hread []
  rw [List.append_nil] at hread'
  rw [Decoder.decodeRecord, Decoder.recordResult]
  simp only [hread', List.isEmpty_nil, if_true, Decoder.reconcile, hvalue]

namespace Inference

/-- A record of a document is read back as the view of the document under the inferred schema. -/
theorem decodeRecord_document {docs : List Value} {typeName namespaceName : String} {job : Options}
    {doc : Value} (ha : Admits (outlineOf typeName namespaceName docs) false doc)
    (hd : ∀ d ∈ docs, Supported d) (hi : ReadableIntegers doc) (hc : InCalendar doc) :
    ((encoderOf job typeName namespaceName docs).encodeRecord doc >>=
        (decoderOf job typeName namespaceName docs).decodeRecord) =
      .ok (Schema.view job.altNamesKey (encoderOf job typeName namespaceName docs).schema doc) := by
  obtain ⟨bytes, hwrites, hreads⟩ := keeps_document ha hd
  have hwrite : Binary.write (encoderOf job typeName namespaceName docs).layout
      ((outlineOf typeName namespaceName docs).image (·.name) plainScalar doc) = .ok bytes :=
    hwrites.write_eq
  have hencode : (encoderOf job typeName namespaceName docs).encodeRecord doc = .ok bytes := by
    rw [Encoder.encodeRecord, prepare_document ha hd hi]
    simp only [Encoder.writeDatum, hwrite]
  rw [hencode]
  exact Decoder.decodeRecord_holds (hreads hc).holds (toValue_document ha hd rfl)

/-- Documents without too long an integer have a schema under which each of them is written and read back
on its own. -/
theorem records_inferred (typeName namespaceName : String) {marker : List UInt8}
    (hmarker : marker.length = 16) {docs : List Value}
    (hd : ∀ d ∈ docs, d.IsStruct ∧ Supported d ∧ DistinctKeys d ∧ ReadableIntegers d ∧ InCalendar d) :
    ∃ options schema e d, ∃ value : Value → Value,
      Options.ofSettings { typeName, namespaceName, syncMarker := marker } = .ok options ∧
      schema.Tidy ∧ Encoder.ofSchema options schema = .ok e ∧
      Decoder.ofSchema options (some schema) = .ok d ∧
      ∀ doc ∈ docs, (e.encodeRecord doc >>= d.decodeRecord) = .ok (value doc) := by
  have hsupported : ∀ d ∈ docs, Supported d := fun d h => (hd d h).2.1
  have hcount : ∀ d ∈ docs, Countable d := fun d h => ⟨(hd d h).1, hsupported d h⟩
  exact ⟨_, _, _, _, _, ofSettings_standard typeName namespaceName hmarker,
    Outline.tidy_schema
      (valid_of_outlined (outlined_outlineOf hsupported typeName namespaceName)) _ _,
    encoder_ofSchema hsupported _, decoder_ofSchema hsupported _, fun doc hdoc =>
      decodeRecord_document (admits_document hcount (fun d h => (hd d h).2.2.1) hdoc) hsupported
        (hd doc hdoc).2.2.2.1 (hd doc hdoc).2.2.2.2⟩

end Inference

/-! ## Records in a container -/

section container

variable {options options' : Options} {schema : Json} {layout : Layout} {e : Encoder}
  {d : Decoder} {docs : List Value} {value : Value → Value}

/-- Records that are read one by one, in a container: it counts them, and a reader that takes the
header and makes the same of their data delivers the same documents. -/
theorem delivers_encode (ht : schema.Tidy) (hlayout : Layout.ofSchema schema = .ok layout)
    (he : e = ⟨schema, Schema.Registry.ofSchema schema, layout, options⟩)
    (hcodec : Container.codecs.contains options.codec = true)
    (hs : options.syncMarker.length = 16)
    (hd : d = ⟨some (schema, Schema.Registry.ofSchema schema, layout), options'⟩)
    (hdocs : ∀ doc ∈ docs, (e.encodeRecord doc >>= d.decodeRecord) = .ok (value doc)) :
    (e.encode docs).outcome = .ok docs.length ∧
      ∀ reader : Decoder,
        (∀ header : Container.Header, header.schema = schema → reader.checkHeader header = .ok () ∧
          ∀ stored v, Reconciler.toValue ⟨schema, Schema.Registry.ofSchema schema, options',
            options'.strictUnknownFields⟩ stored = .ok v →
              (reader.reconcilerFor header).toValue stored = .ok v) →
        Delivers (reader.results true (e.encode docs).bytes) (docs.map value) := by
  subst he hd
  have hchosen : ∀ doc, ∃ parts : Value × List UInt8 × Value, doc ∈ docs →
      Encoder.prepare ⟨schema, Schema.Registry.ofSchema schema, layout, options⟩ doc =
        .ok parts.1 ∧ Binary.write layout parts.1 = .ok parts.2.1 ∧
      Binary.read layout parts.2.1 = .ok (parts.2.2, []) ∧
      Reconciler.toValue ⟨schema, Schema.Registry.ofSchema schema, options',
        options'.strictUnknownFields⟩ parts.2.2 = .ok (value doc) := by
    intro doc
    by_cases hdoc : doc ∈ docs
    · have hboth := hdocs doc hdoc
      cases hencode : Encoder.encodeRecord
          ⟨schema, Schema.Registry.ofSchema schema, layout, options⟩ doc with
      | error f =>
        rw [hencode] at hboth
        cases hboth
      | ok bytes =>
        rw [hencode] at hboth
        obtain ⟨datum, hprepare, hwrite⟩ := Encoder.encodeRecord_ok hencode
        obtain ⟨stored, hread, hvalue⟩ := Decoder.decodeRecord_ok hboth
        exact ⟨(datum, bytes, stored), fun _ => ⟨hprepare, hwrite, hread, hvalue⟩⟩
    · exact ⟨(.null, [], .null), fun hdoc' => absurd hdoc' hdoc⟩
  obtain ⟨parts, hparts⟩ := Classical.axiomOfChoice hchosen
  have hencode := Encoder.encode_documents hcodec
    (fun doc (hdoc : doc ∈ docs) => (hparts doc hdoc).1) fun doc hdoc => (hparts doc hdoc).2.1
  rw [hencode]
  refine ⟨rfl, fun reader hreader => ?_⟩
  obtain ⟨hcheck, hvalue⟩ := hreader ⟨schema, layout, options.codec, options.syncMarker⟩ rfl
  simp only
  rw [reader.results_header ht hlayout hcodec hs hcheck]
  exact Decoder.blocksOf_records hs rfl
    (fun doc hdoc => Binary.holds_of_read (hparts doc hdoc).2.2.1)
    (fun doc hdoc => hvalue _ _ (hparts doc hdoc).2.2.2) options.syncInterval

end container

section records

variable {settings : Settings} {options options' : Options} {schema : Json} {e : Encoder}
  {d schemaless : Decoder} {docs : List Value} {value : Value → Value}

/-- A reader with the schema and one without deliver what the records give on their own. -/
theorem delivers_records (ho : Options.ofSettings settings = .ok options)
    (hcodec : settings.codec = "null") (ht : schema.Tidy)
    (he : Encoder.ofSchema options schema = .ok e)
    (hd : Decoder.ofSchema options' (some schema) = .ok d)
    (hn : Decoder.ofSchema options' none = .ok schemaless)
    (hdocs : ∀ doc ∈ docs, (e.encodeRecord doc >>= d.decodeRecord) = .ok (value doc)) :
    (e.encode docs).outcome = .ok docs.length ∧
      Delivers (d.results true (e.encode docs).bytes) (docs.map value) ∧
      Delivers (schemaless.results true (e.encode docs).bytes) (docs.map value) := by
  obtain ⟨hcodecs, hmarker, hlength⟩ := ofSettings_marker ho
  obtain ⟨layout, hcheck, hlayout, -, rfl⟩ := Encoder.ofSchema_parts he
  obtain rfl := Decoder.ofSchema_some hcheck hlayout hd
  cases hn
  have hself := checkCompatible_self ht hcheck hlayout
  obtain ⟨hcount, hdelivers⟩ := delivers_encode ht hlayout rfl
    (by rw [hcodecs, hcodec]; decide) (by rw [hmarker]; exact hlength) rfl hdocs
  refine ⟨hcount, hdelivers _ ?_, hdelivers _ ?_⟩
  · rintro header rfl
    refine ⟨?_, fun _ _ h => h⟩
    simp only [Decoder.checkHeader, hself, ite_self]
  · rintro header rfl
    exact ⟨rfl, fun _ _ h => Reconciler.valueNode_lenient h⟩

end records

end AvroDocument
