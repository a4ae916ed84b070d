import AvroDocument.Proofs.ProjectedResults
import AvroDocument.Proofs.TypedData

/-!
# AvroDocument.Proofs.StrictReading

Strict readers of containers that carry their own schema.

* `valueNode_fitting`: what is read with the layout of a schema is reconciled alike, strictly or not.
* `results_loosened`: a reader that is not strict gives the results of a strict one, with each
  mismatch as a failure to decode.
* `results_encode_strict`: both read the same documents from what an encoder wrote.
-/

namespace AvroDocument

/-- The same options for a strict reader, or for one that is not. -/
def Options.withStrictness (o : Options) (strict : Bool) : Options :=
  { o with strictUnknownFields := strict }

/-! ## Scalars -/

namespace Coercion

variable {o : Options} {strict : Bool}

theorem readText_withStrictness (typeName : String) (logical : Option String) (text : String) :
    readText (o.withStrictness strict) typeName logical text = readText o typeName logical text := by
  unfold readText
  generalize Text.trim text = trimmed
  rfl

theorem readValue_withStrictness (node : Json) (v : Value) :
    readValue (o.withStrictness strict) node v = readValue o node v := by
  unfold readValue
  simp only [readText_withStrictness]
  rfl

theorem convert_withStrictness (path : String) (node : Json) (v : Value) :
    convert (o.withStrictness strict) path node v = convert o path node v := by
  unfold convert toInteger
  rfl

end Coercion

theorem coerce_withStrictness {o : Options} {strict : Bool} (path : String) (node : Json)
    (v : Value) : coerce (o.withStrictness strict) path node v = coerce o path node v := by
  unfold coerce
  simp only [Coercion.readValue_withStrictness, Coercion.convert_withStrictness]

theorem scalarValue_withStrictness {o : Options} {strict : Bool} (path : String) (node : Json)
    (v : Value) :
    Decoding.scalarValue (o.withStrictness strict) path node v =
      Decoding.scalarValue o path node v := by
  unfold Decoding.scalarValue
  simp only [coerce_withStrictness]

/-! ## Data that fit -/

open Schema (Typed Plain Piece Registry)

namespace Reconciler

/-- Two readers of one schema that differ in strictness only. -/
structure Alike (w r : Reconciler) : Prop where
  registry : w.registry = r.registry
  options : ∃ strict, w.options = r.options.withStrictness strict

section alike

variable {w r : Reconciler} {enclosing inner path : String} {node : Json}
  {entries : List (Key × Value)}

theorem Alike.scalarValue (h : Alike w r) (path : String) (node : Json) (v : Value) :
    Decoding.scalarValue w.options path node v = Decoding.scalarValue r.options path node v := by
  obtain ⟨strict, hoptions⟩ := h.options
  rw [hoptions, scalarValue_withStrictness]

theorem Alike.altNamesKey (h : Alike w r) : w.options.altNamesKey = r.options.altNamesKey := by
  obtain ⟨strict, hoptions⟩ := h.options
  rw [hoptions]
  rfl

theorem Alike.items {items : Json} {vs : List Value}
    (h : ∀ d ∈ vs, ∀ path,
      w.valueNode inner path items d = r.valueNode inner path items d) (index : Nat) :
    w.valueItems inner path index items vs = r.valueItems inner path index items vs := by
  induction vs generalizing index with
  | nil => rw [valueItems, valueItems]
  | cons d vs ih =>
    rw [valueItems, valueItems, h d List.mem_cons_self,
      ih fun d hd => h d (List.mem_cons_of_mem _ hd)]

theorem Alike.fields (halike : Alike w r) {fields : List Json}
    (h : ∀ f ∈ fields, w.fieldValue inner path entries f = r.fieldValue inner path entries f)
    (taken : List (Key × Value)) :
    w.valueFields inner path taken fields entries =
      r.valueFields inner path taken fields entries := by
  induction fields generalizing taken with
  | nil => rw [valueFields, valueFields]
  | cons f fields ih =>
    rw [valueFields_cons, valueFields_cons, h f List.mem_cons_self, halike.altNamesKey]
    cases r.fieldValue inner path entries f with
    | error e => rfl
    | ok v => exact ih (fun f hf => h f (List.mem_cons_of_mem _ hf)) _

/-- A record whose entries are all known has the values of its fields. -/
theorem valueNode_known (hplain : Plain inner node) (hkind : Schema.typeName node = "record")
    (hknown : Decoding.checkKnown path node
      ((Schema.fieldsOf node).filterMap (Decoding.sourceName? entries)) entries = .ok ()) :
    r.valueNode inner path node (.struct entries) =
      (r.valueFields inner path [] (Schema.fieldsOf node) entries).map .struct := by
  rw [valueNode_plain hplain, valuePlain, if_pos hkind]
  cases r.valueFields inner path [] (Schema.fieldsOf node) entries with
  | error e => rfl
  | ok value =>
    simp only [hknown, ite_self]
    rfl

end alike

section fitting

variable {w r : Reconciler} {schema : Json} {enclosing : String} {node : Json} {datum : Value}

/-- All entries of a stored record are known. -/
theorem checkKnown_stored {pieces : List Piece} {stored : Piece → Value}
    (hfields : Schema.fieldsOf node = pieces.map (·.node))
    (hnames : (pieces.map fun p => Schema.nameOf p.node).Nodup) (path : String) :
    Decoding.checkKnown path node
        ((Schema.fieldsOf node).filterMap
          (Decoding.sourceName? (Binary.entriesFor (fun p => Schema.nameOf p.node) stored pieces)))
        (Binary.entriesFor (fun p => Schema.nameOf p.node) stored pieces) = .ok () := by
  refine Inference.checkKnown_ok fun e he => ?_
  obtain ⟨p, hp, rfl⟩ := List.mem_map.mp he
  exact ⟨_, List.mem_filterMap.mpr ⟨p.node, hfields ▸ List.mem_map_of_mem hp,
    Schema.sourceName?_kept hnames hp rfl⟩, rfl⟩

/-- A datum of the type of a node is reconciled alike, strictly or not: nothing in it is unknown. -/
theorem valueNode_fitting (hr : r.registry = Registry.ofSchema schema) (halike : Alike w r)
    (h : Typed schema Binary.Stored enclosing node datum) (path : String) :
    w.valueNode enclosing path node datum = r.valueNode enclosing path node datum := by
  have hw : w.registry = Registry.ofSchema schema := halike.registry.trans hr
  induction h generalizing path with
  | scalar hresolve hplain _ hkind =>
    rw [w.valueNode_resolved (hw ▸ hresolve) hplain, r.valueNode_resolved (hr ▸ hresolve) hplain,
      valueNode_primitive hplain hkind, valueNode_primitive hplain hkind, halike.scalarValue]
  | array hresolve hplain hkind _ ih =>
    rw [w.valueNode_resolved (hw ▸ hresolve) hplain, r.valueNode_resolved (hr ▸ hresolve) hplain,
      valueNode_array hplain hkind, valueNode_array hplain hkind,
      Alike.items fun d hd path => ih d hd path]
  | @union enclosing members datum _ ih =>
    rw [valueNode_union, valueNode_union]
    by_cases hnull : datum = .null
    · rw [hnull, Encoding.isNull, if_pos rfl, if_pos rfl]
    · rw [Encoding.isNull_eq hnull, if_neg Bool.false_ne_true, if_neg Bool.false_ne_true]
      cases hfind : members.find? fun m => !Schema.isNullMember m with
      | none => rfl
      | some member => exact ih member hfind hnull path
  | record hresolve hplain _ hkind hfields hnames _ ih =>
    rw [w.valueNode_resolved (hw ▸ hresolve) hplain, r.valueNode_resolved (hr ▸ hresolve) hplain,
      valueNode_known hplain hkind (checkKnown_stored hfields hnames path),
      valueNode_known hplain hkind (checkKnown_stored hfields hnames path),
      halike.fields fun f hf => ?_]
    rw [hfields] at hf
    obtain ⟨p, hp, rfl⟩ := List.mem_map.mp hf
    rw [Schema.fieldValue_kept hnames hp rfl, Schema.fieldValue_kept hnames hp rfl,
      halike.altNamesKey]
    exact ih p hp _

end fitting

end Reconciler

/-! ## Results -/

namespace Feed

variable {α β : Type} (f : α → β)

/-- Every item changed by a function that does not fail. -/
def map (feed : Feed α) : Feed β := feed.mapItems fun a => .ok (f a)

theorem failure_map (feed : Feed α) : (feed.map f).failure = feed.failure := by
  obtain ⟨steps, failure⟩ := feed
  show (mapSteps _ failure steps).failure = failure
  induction steps with
  | nil => rfl
  | cons step steps ih => cases step <;> exact ih

theorem map_append (first second : Feed α) :
    (first.append second).map f = (first.map f).append (second.map f) := by
  obtain ⟨steps, failure⟩ := first
  cases failure with
  | some e =>
    have hfailed : ((⟨steps, some e⟩ : Feed α).map f).failure = some e := failure_map f _
    rw [append, append, hfailed]
  | none =>
    have hnone (steps : List (Pulled α)) : ((⟨steps, none⟩ : Feed α).map f).failure = none :=
      failure_map f _
    rw [append, append, hnone]
    show map f ⟨steps ++ second.steps, second.failure⟩ =
      ⟨((⟨steps, none⟩ : Feed α).map f).steps ++ (second.map f).steps, (second.map f).failure⟩
    induction steps with
    | nil => rfl
    | cons step steps ih =>
      cases step with
      | item a => exact congrArg (Feed.cons (f a)) ih
      | warning text => exact congrArg (Feed.warn text) ih

theorem items_map (feed : Feed α) : (feed.map f).items = feed.items.map f := by
  obtain ⟨steps, failure⟩ := feed
  show itemsOf (mapSteps _ failure steps).steps = (itemsOf steps).map f
  induction steps with
  | nil => rfl
  | cons step steps ih =>
    cases step with
    | item a => exact congrArg (f a :: ·) ih
    | warning text => exact ih

end Feed

namespace Decoder

/-- What a reader that is not strict gives in the place of a result of a strict one: a failure to
decode for a mismatch. -/
def loosened (x : DecodeResult) : DecodeResult :=
  match x.outcome with
  | .error (.mismatch m) => ⟨.error (.decoding x.offset (.unfit m)), x.offset⟩
  | _ => x

/-- A document is a document for both. -/
theorem loosened_ok {x : DecodeResult} {v : Value} {offset : Nat} :
    loosened x = ⟨.ok v, offset⟩ ↔ x = ⟨.ok v, offset⟩ := by
  obtain ⟨outcome, position⟩ := x
  cases outcome with
  | ok v' => rfl
  | error e => cases e <;> simp [loosened]

section loosened

variable {w r : Reconciler} {layout : Layout}

theorem reconcile_loosened (hw : w.strict = false) (hr : r.strict = true) {datum : Value}
    (h : w.toValue datum = r.toValue datum) (offset : Nat) :
    reconcile w offset datum = (reconcile r offset datum).map loosened := by
  unfold reconcile
  rw [h, hw, hr]
  cases r.toValue datum with
  | ok v => rfl
  | error e => cases e <;> rfl

/-- Whether two readers make the same of all data that are read with a layout. -/
def ReadsAlike (w r : Reconciler) (layout : Layout) : Prop :=
  ∀ bytes datum rest, Binary.read layout bytes = .ok (datum, rest) →
    w.toValue datum = r.toValue datum

theorem recordsOf_loosened (hw : w.strict = false) (hr : r.strict = true)
    (h : ReadsAlike w r layout) (offset count index : Nat) (body : List UInt8) :
    recordsOf w layout offset count index body =
      ((recordsOf r layout offset count index body).1.map loosened,
        (recordsOf r layout offset count index body).2) := by
  induction count generalizing index body with
  | zero => rfl
  | succ count ih =>
    rw [recordsOf, recordsOf]
    cases hread : Binary.read layout body with
    | error left => rfl
    | ok result =>
      obtain ⟨datum, rest⟩ := result
      simp only [reconcile_loosened hw hr (h body datum rest hread), ih]
      cases reconcile r offset datum with
      | error e => rfl
      | ok x => rfl

theorem blocksOf_loosened (hw : w.strict = false) (hr : r.strict = true)
    {header : Container.Header} (h : ReadsAlike w r header.layout) (total fuel : Nat)
    (bytes : List UInt8) :
    blocksOf w header total fuel bytes = (blocksOf r header total fuel bytes).map loosened := by
  induction fuel generalizing bytes with
  | zero => rfl
  | succ fuel ih =>
    cases bytes with
    | nil => rfl
    | cons b bytes =>
      rw [blocksOf, blocksOf]
      · simp only
        cases Container.readBlock header.sync (b :: bytes) with
        | error left => rfl
        | ok result =>
          obtain ⟨block, rest⟩ := result
          simp only [recordsOf_loosened hw hr h, ih rest]
          split
          · exact (Feed.map_append loosened _ _).symm
          · rfl
      all_goals simp

end loosened

/-! ## Containers -/

/-- A reader that is not strict gives the results of a strict one for every container that carries
the schema of both, with each mismatch as a failure to decode. -/
theorem results_loosened {options : Options} {schema : Json} {lenient strict : Decoder}
    (hlenient : Decoder.ofSchema (options.withStrictness false) (some schema) = .ok lenient)
    (hstrict : Decoder.ofSchema (options.withStrictness true) (some schema) = .ok strict)
    (htidy : schema.Tidy) {bytes : List UInt8}
    (hheader : ∀ header rest, Container.readHeader? bytes = some (header, rest) →
      header.schema = schema)
    (placed : Bool) :
    lenient.results placed bytes = (strict.results placed bytes).map loosened := by
  obtain ⟨layout, hcheck, hlayout, hregular, rfl⟩ := ofSchema_parts hlenient
  obtain ⟨layout', -, hlayout', -, rfl⟩ := ofSchema_parts hstrict
  obtain rfl := Except.ok.inj (hlayout.symm.trans hlayout')
  rw [results_lenient rfl, results]
  cases hread : Container.readHeader? bytes with
  | none => rfl
  | some front =>
    obtain ⟨header, rest⟩ := front
    obtain rfl := hheader header rest hread
    have hself : checkHeader ⟨some (header.schema, Schema.Registry.ofSchema header.schema, layout),
        options.withStrictness true⟩ header = .ok () :=
      checkCompatible_self htidy hcheck hlayout
    simp only [hself]
    split
    · rfl
    split
    · rfl
    refine blocksOf_loosened rfl rfl (fun bytes datum rest hdatum => ?_) _ _ _
    have hsame := layout_of_readHeader? hread
    rw [hlayout] at hsame
    rw [← Except.ok.inj hsame] at hdatum
    have halike : Reconciler.Alike
        ⟨header.schema, Registry.ofSchema header.schema, options.withStrictness false, false⟩
        ⟨header.schema, Registry.ofSchema header.schema, options.withStrictness true, true⟩ :=
      ⟨rfl, false, rfl⟩
    exact Reconciler.valueNode_fitting rfl halike
      (Schema.typed_of_read hlayout hregular hdatum) _

/-- What an encoder wrote holds the same documents for a strict reader with its schema and for one
that is not strict, each in its place. They differ in the failure that they report for a datum that
does not fit. -/
theorem results_encode_strict {settings : Settings} {options options' : Options} {schema : Json}
    {e : Encoder} {lenient strict : Decoder} (ho : Options.ofSettings settings = .ok options')
    (htidy : schema.Tidy) (he : Encoder.ofSchema options' schema = .ok e)
    (hlenient : Decoder.ofSchema (options.withStrictness false) (some schema) = .ok lenient)
    (hstrict : Decoder.ofSchema (options.withStrictness true) (some schema) = .ok strict)
    (docs : List Value) (placed : Bool) :
    lenient.results placed (e.encode docs).bytes =
        (strict.results placed (e.encode docs).bytes).map loosened ∧
      ∀ (i : Nat) (v : Value) (offset : Nat),
        (lenient.results placed (e.encode docs).bytes).items[i]? = some ⟨.ok v, offset⟩ ↔
          (strict.results placed (e.encode docs).bytes).items[i]? = some ⟨.ok v, offset⟩ := by
  obtain ⟨layout, -, hlayout, -, rfl⟩ := Encoder.ofSchema_parts he
  have hsame := results_loosened hlenient hstrict htidy
    (fun header rest hread => by
      rw [(header_encode ho htidy hlayout (Registry.ofSchema schema) docs hread).1]) placed
  refine ⟨hsame, fun i v offset => ?_⟩
  rw [hsame, Feed.items_map, List.getElem?_map, Option.map_eq_some_iff]
  constructor
  · rintro ⟨x, hx, hloosened⟩
    rwa [loosened_ok.mp hloosened] at hx
  · exact fun hx => ⟨_, hx, loosened_ok.mpr rfl⟩

end Decoder

end AvroDocument
