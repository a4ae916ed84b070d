import AvroDocument.Proofs.ProjectedResults
import AvroDocument.Proofs.TypedData

/-!
# AvroDocument.Proofs.FaithfulReading

Containers that are read with the schema that they carry.

* `Schema.Renamed`: a datum under the original names of the fields of its records.
* `valueNode_renamed`: what a reader makes of a datum that was read with the schema of the reader.
* `Container.dataOf`: the data that a container holds.
* `results_renamed`: every document of a reader without a schema is the datum in its place.
* `results_each`: every datum has a result, for each reader that takes the schema of the container.
-/

namespace AvroDocument
namespace Schema

/-- A datum of a schema and the value that a document has for it: the records under the original
names of all their fields, in the order of the schema, and nothing else changed. -/
inductive Renamed (registry : Registry) (purpose : String) :
    String → Json → Value → Value → Prop
  | null {enclosing : String} {members : List Json} :
      Renamed registry purpose enclosing (.arr members) .null .null
  | member {enclosing : String} {members : List Json} {member : Json} {datum v : Value}
      (hfind : members.find? (fun m => !isNullMember m) = some member)
      (h : Renamed registry purpose enclosing member datum v) :
      Renamed registry purpose enclosing (.arr members) datum v
  | scalar {enclosing inner : String} {node plain : Json} {type : Primitive} {datum v : Value}
      (hresolve : registry.resolve node enclosing = .ok (plain, inner))
      (hkind : Primitive.ofName? (typeName plain) = some type) (h : SameScalar datum v) :
      Renamed registry purpose enclosing node datum v
  | array {enclosing inner : String} {node plain : Json} {pairs : List (Value × Value)}
      (hresolve : registry.resolve node enclosing = .ok (plain, inner))
      (hkind : typeName plain = "array")
      (h : ∀ p ∈ pairs, Renamed registry purpose inner (itemsOf plain) p.1 p.2) :
      Renamed registry purpose enclosing node (.list (pairs.map (·.1))) (.list (pairs.map (·.2)))
  | record {enclosing inner : String} {node plain : Json} {entries : List (Key × Value)}
      {view : Json → Value} (hresolve : registry.resolve node enclosing = .ok (plain, inner))
      (hkind : typeName plain = "record")
      (hkeys : entries.map (·.1) = (fieldsOf plain).map fun f => .text (nameOf f))
      (h : ∀ f ∈ fieldsOf plain, ∀ d, Value.member? (nameOf f) entries = some d →
        Renamed registry purpose inner (typeOf f) d (view f)) :
      Renamed registry purpose enclosing node (.struct entries)
        (.struct (shownFields purpose (fieldsOf plain) view))

section

variable {r : Reconciler} {schema : Json} {enclosing inner : String} {node : Json} {datum v : Value}

/-- The values of items, each beside its item. -/
theorem valueItems_pairs {items : Json} {vs values : List Value} {path : String} {index : Nat}
    (h : r.valueItems inner path index items vs = .ok values) :
    ∃ pairs : List (Value × Value), vs = pairs.map (·.1) ∧ values = pairs.map (·.2) ∧
      ∀ p ∈ pairs, ∃ path, r.valueNode inner path items p.1 = .ok p.2 := by
  induction vs generalizing index values with
  | nil =>
    rw [Reconciler.valueItems] at h
    cases h
    exact ⟨[], rfl, rfl, List.forall_mem_nil _⟩
  | cons d vs ih =>
    rw [Reconciler.valueItems] at h
    cases hfirst : r.valueNode inner (Pointer.item path index) items d with
    | error e =>
      rw [hfirst] at h
      cases h
    | ok first =>
      rw [hfirst] at h
      cases hrest : r.valueItems inner path (index + 1) items vs with
      | error e =>
        simp only [hrest] at h
        cases h
      | ok rest =>
        simp only [hrest] at h
        cases h
        obtain ⟨pairs, rfl, rfl, hpairs⟩ := ih hrest
        exact ⟨(d, first) :: pairs, rfl, rfl, List.forall_mem_cons.mpr ⟨⟨_, hfirst⟩, hpairs⟩⟩

/-- What a reader makes of a datum that was read with its own schema is that datum, under the
original names. -/
theorem valueNode_renamed (hr : r.registry = Registry.ofSchema schema)
    (hnames : DistinctAltNames r.options.altNamesKey schema)
    (h : Typed schema Binary.Stored enclosing node datum) {path : String}
    (hv : r.valueNode enclosing path node datum = .ok v) :
    Renamed (Registry.ofSchema schema) r.options.altNamesKey enclosing node datum v := by
  induction h generalizing path v with
  | scalar hresolve hplain _ hkind hmeaning hstored =>
    rw [r.valueNode_resolved (hr ▸ hresolve) hplain,
      valueNode_primitive hplain hkind] at hv
    exact .scalar hresolve hkind ((scalarValue_judged hkind hmeaning hstored).1 v hv)
  | array hresolve hplain hkind _ ih =>
    rw [r.valueNode_resolved (hr ▸ hresolve) hplain, valueNode_array hplain hkind] at hv
    split at hv
    · cases hv
    rename_i values hvalues
    cases hv
    obtain ⟨pairs, rfl, rfl, hpairs⟩ := valueItems_pairs hvalues
    refine .array hresolve hkind fun p hp => ?_
    obtain ⟨path, hvalue⟩ := hpairs p hp
    exact ih p.1 (List.mem_map_of_mem hp) hvalue
  | @union enclosing members datum _ ih =>
    rw [Reconciler.valueNode_union] at hv
    by_cases hnull : datum = .null
    · rw [hnull, Encoding.isNull, if_pos rfl] at hv
      split at hv
      · cases hv
        rw [hnull]
        exact .null
      · cases hv
    · rw [Encoding.isNull_eq hnull, if_neg Bool.false_ne_true] at hv
      split at hv
      · cases hv
      rename_i member hfind
      exact .member hfind (ih member hfind hnull hv)
  | record hresolve hplain hinside hkind hfields hdistinct _ ih =>
    rw [r.valueNode_resolved (hr ▸ hresolve) hplain] at hv
    obtain ⟨view, rfl, hview⟩ := valueNode_record_ok hplain hkind (hnames _ hinside hkind) hv
    refine .record hresolve hkind ?_ fun f hf d hd => ?_
    · rw [hfields, Binary.entriesFor, List.map_map, List.map_map]
      rfl
    · have hvalue := hview f hf
      rw [hfields] at hf
      obtain ⟨p, hp, rfl⟩ := List.mem_map.mp hf
      rw [Binary.member?_entriesFor hdistinct hp] at hd
      obtain rfl := Option.some.inj hd
      rw [fieldValue_kept hdistinct hp rfl] at hvalue
      exact ih p hp hvalue

end

end Schema

/-! ## The data of a container -/

namespace Container

/-- The data of the records of a block, as far as they can be read, and whether all of them can. -/
def blockData (layout : Layout) : Nat → List UInt8 → List Value × Bool
  | 0, _ => ([], true)
  | count + 1, body =>
    match Binary.read layout body with
    | .error _ => ([], false)
    | .ok (datum, rest) =>
      let (data, complete) := blockData layout count rest
      (datum :: data, complete)

/-- The data of blocks, as far as they can be read. A block takes at least one byte, so the number of
bytes is fuel enough. -/
def dataOf (header : Header) : Nat → List UInt8 → List Value
  | 0, _ => []
  | _, [] => []
  | fuel + 1, bytes =>
    match readBlock header.sync bytes with
    | .error _ => []
    | .ok (block, rest) =>
      let (data, complete) := blockData header.layout block.count block.body
      if complete then data ++ dataOf header fuel rest else data

theorem read_of_blockData {layout : Layout} {count : Nat} {body : List UInt8} {datum : Value}
    (h : datum ∈ (blockData layout count body).1) :
    ∃ bytes rest, Binary.read layout bytes = .ok (datum, rest) := by
  induction count generalizing body with
  | zero => cases h
  | succ count ih =>
    rw [blockData] at h
    split at h
    · cases h
    · rename_i hread
      obtain rfl | h := List.mem_cons.mp h
      · exact ⟨_, _, hread⟩
      · exact ih h

/-- The data of a container are read with the layout in its header. -/
theorem read_of_dataOf {header : Header} {fuel : Nat} {bytes : List UInt8} {datum : Value}
    (h : datum ∈ dataOf header fuel bytes) :
    ∃ bytes rest, Binary.read header.layout bytes = .ok (datum, rest) := by
  induction fuel generalizing bytes with
  | zero =>
    rw [dataOf] at h
    cases h
  | succ fuel ih =>
    cases bytes with
    | nil =>
      rw [dataOf] at h
      · cases h
      · simp
    | cons b bytes =>
      rw [dataOf] at h
      · split at h
        · cases h
        · simp only at h
          split at h
          · obtain h | h := List.mem_append.mp h
            · exact read_of_blockData h
            · exact ih h
          · exact read_of_blockData h
      · simp

end Container

namespace Decoder

open Container (blockData dataOf)

/-- Data and their results, each in its place. Beyond the last datum there is no document, and only
the failure of a datum, which ends the results, leaves data without one. -/
inductive Answers (r : Reconciler) (failure : Option Failure) :
    List Value → List DecodeResult → Prop
  | ended {results : List DecodeResult} (h : ∀ x ∈ results, ∀ v, x.outcome ≠ .ok v)
      (hfailure : failure = none) : Answers r failure [] results
  | raised {data : List Value} {datum : Value} {offset : Nat} {e : Failure}
      (h : reconcile r offset datum = .error e) (hfailure : failure = some e) :
      Answers r failure (datum :: data) []
  | cons {data : List Value} {results : List DecodeResult} {datum : Value} {x : DecodeResult}
      {offset : Nat} (h : reconcile r offset datum = .ok x)
      (hrest : Answers r failure data results) :
      Answers r failure (datum :: data) (x :: results)

section answers

variable {r : Reconciler} {failure : Option Failure} {data : List Value}
  {results : List DecodeResult}

theorem Answers.document (h : Answers r failure data results) {i offset : Nat} {v : Value}
    (hresult : results[i]? = some ⟨.ok v, offset⟩) :
    ∃ datum, data[i]? = some datum ∧ r.toValue datum = .ok v := by
  induction h generalizing i with
  | ended h => exact absurd rfl (h _ (List.mem_of_getElem? hresult) v)
  | raised => cases hresult
  | cons h _ ih =>
    cases i with
    | zero =>
      obtain rfl := Option.some.inj hresult
      exact ⟨_, rfl, ((reconcile_ok h).2 v).mp rfl⟩
    | succ i => exact ih hresult

theorem Answers.each (h : Answers r none data results) {i : Nat} {datum : Value}
    (hdatum : data[i]? = some datum) :
    ∃ x offset, results[i]? = some x ∧ reconcile r offset datum = .ok x := by
  generalize hnone : (none : Option Failure) = failure at h
  induction h generalizing i with
  | ended => cases hdatum
  | raised _ hfailure => cases hnone.trans hfailure
  | cons h _ ih =>
    cases i with
    | zero =>
      obtain rfl := Option.some.inj hdatum
      exact ⟨_, _, rfl, h⟩
    | succ i => exact ih hdatum

/-- The failure that ends the results is that of the datum behind the last one that has a result. -/
theorem Answers.raises {f : Failure} (h : Answers r (some f) data results) :
    ∃ datum offset, data[results.length]? = some datum ∧ reconcile r offset datum = .error f := by
  generalize hsome : some f = failure at h
  induction h with
  | ended _ hnone => cases hsome.trans hnone
  | raised h hfailure =>
    obtain rfl := Option.some.inj (hsome.trans hfailure)
    exact ⟨_, _, rfl, h⟩
  | cons _ _ ih => exact ih

/-- The data of the records of a block, and of what comes behind them. -/
theorem recordsOf_answers {layout : Layout} {behind : Feed DecodeResult}
    (hbehind : Answers r behind.failure data behind.items) (offset count index : Nat)
    (body : List UInt8) :
    Answers r (continued (recordsOf r layout offset count index body) behind).failure
      (if (blockData layout count body).2 then (blockData layout count body).1 ++ data
        else (blockData layout count body).1)
      (continued (recordsOf r layout offset count index body) behind).items := by
  induction count generalizing index body with
  | zero =>
    rw [recordsOf, blockData, continued_empty, if_pos rfl, List.nil_append]
    exact hbehind
  | succ count ih =>
    rw [recordsOf, blockData]
    cases hread : Binary.read layout body with
    | error left =>
      refine .ended (fun x hx v hv => ?_) rfl
      obtain rfl := List.mem_singleton.mp hx
      cases hv
    | ok result =>
      obtain ⟨datum, rest⟩ := result
      simp only
      cases hreconcile : reconcile r offset datum with
      | error e =>
        by_cases hcomplete : (blockData layout count rest).2 = true
        · rw [if_pos hcomplete]
          exact .raised hreconcile rfl
        · rw [if_neg hcomplete]
          exact .raised hreconcile rfl
      | ok x =>
        simp only
        rw [continued_cons]
        have hrest := ih (index + 1) rest
        by_cases hcomplete : (blockData layout count rest).2 = true
        · rw [if_pos hcomplete] at hrest ⊢
          exact .cons hreconcile hrest
        · rw [if_neg hcomplete] at hrest ⊢
          exact .cons hreconcile hrest

theorem blocksOf_answers (header : Container.Header) (total fuel : Nat) (bytes : List UInt8) :
    Answers r (blocksOf r header total fuel bytes).failure (dataOf header fuel bytes)
      (blocksOf r header total fuel bytes).items := by
  induction fuel generalizing bytes with
  | zero =>
    rw [blocksOf, dataOf]
    exact .ended (List.forall_mem_nil _) rfl
  | succ fuel ih =>
    cases bytes with
    | nil =>
      rw [blocksOf, dataOf]
      · exact .ended (List.forall_mem_nil _) rfl
      all_goals simp
    | cons b bytes =>
      rw [blocksOf, dataOf]
      · simp only
        cases hread : Container.readBlock header.sync (b :: bytes) with
        | error left =>
          refine .ended (fun x hx v hv => ?_) rfl
          obtain rfl := List.mem_singleton.mp hx
          cases hv
        | ok result =>
          obtain ⟨block, rest⟩ := result
          exact recordsOf_answers (ih rest) _ _ _ _
      all_goals simp

end answers

/-! ## Containers -/

section containers

open Schema (DistinctAltNames Renamed)

variable {d : Decoder} {options : Options} {bytes rest : List UInt8} {header : Container.Header}

/-- A reader answers the data of a container that it can place and decompress, if it takes the schema of
the container. -/
theorem results_answers (hread : Container.readHeader? bytes = some (header, rest))
    (hheader : d.checkHeader header = .ok ())
    (hcodec : Container.codecs.contains header.codec = true) :
    Answers (d.reconcilerFor header) (d.results true bytes).failure (dataOf header rest.length rest)
      (d.results true bytes).items := by
  have hblocks : d.results true bytes =
      blocksOf (d.reconcilerFor header) header bytes.length rest.length rest := by
    rw [results, hread]
    simp only [hheader, hcodec]
    rfl
  rw [hblocks]
  exact blocksOf_answers header _ _ _

/-- Every document that a reader without a schema gives is the datum in its place in the container,
under the original names, when the schema of the container is one that could be supplied. -/
theorem results_renamed {registry : Schema.Registry}
    (hread : Container.readHeader? bytes = some (header, rest))
    (hcodec : Container.codecs.contains header.codec = true)
    (hcheck : Schema.check header.schema = .ok registry)
    (hnames : DistinctAltNames options.altNamesKey header.schema) {i offset : Nat} {v : Value}
    (hresult : (results ⟨none, options⟩ true bytes).items[i]? = some ⟨.ok v, offset⟩) :
    ∃ datum, (dataOf header rest.length rest)[i]? = some datum ∧
      Renamed registry options.altNamesKey "" header.schema datum v := by
  have hlayout := layout_of_readHeader? hread
  obtain ⟨rfl, hregular⟩ := Schema.regular_of_check hcheck hlayout
  obtain ⟨datum, hdatum, hvalue⟩ := (results_answers hread rfl hcodec).document hresult
  obtain ⟨bytes', rest', hstored⟩ := Container.read_of_dataOf (List.mem_of_getElem? hdatum)
  exact ⟨datum, hdatum,
    Schema.valueNode_renamed rfl hnames (Schema.typed_of_read hlayout hregular hstored) hvalue⟩

/-- Every datum has a result, unless a failure ends the results: a document, or a failure of a datum
that does not fit. -/
theorem results_each (hread : Container.readHeader? bytes = some (header, rest))
    (hheader : d.checkHeader header = .ok ())
    (hcodec : Container.codecs.contains header.codec = true)
    (hfailure : (d.results true bytes).failure = none) {i : Nat} {datum : Value}
    (hdatum : (dataOf header rest.length rest)[i]? = some datum) :
    ∃ offset, ∃ outcome : Except Failure Value,
      (d.results true bytes).items[i]? = some ⟨outcome, offset⟩ ∧
        ∀ e, outcome = .error e → ∃ m,
          e = if (d.reconcilerFor header).strict then .mismatch m
            else .decoding offset (.unfit m) := by
  have hanswers := results_answers hread hheader hcodec
  rw [hfailure] at hanswers
  obtain ⟨⟨outcome, position⟩, offset, hx, hreconcile⟩ := hanswers.each hdatum
  refine ⟨position, outcome, hx, fun e he => ?_⟩
  subst he
  unfold reconcile at hreconcile
  split at hreconcile
  · cases hreconcile
  · rename_i m _
    refine ⟨m, ?_⟩
    split at hreconcile
    · cases hreconcile
      rw [if_pos ‹_›]
    · cases hreconcile
      rw [if_neg ‹_›]
  · cases hreconcile

end containers

end Decoder
end AvroDocument
