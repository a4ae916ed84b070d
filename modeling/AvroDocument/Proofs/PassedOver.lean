import AvroDocument.Encoding

/-!
# AvroDocument.Proofs.PassedOver

Which documents a job writes that passes over bad records.

* `Encoder.Judges`: documents that preparation accepts, or refuses for not fitting the schema.
* `prepared_accepted`: those that it refuses are passed over.
* `encodeRecords_accepted`: the records of all others are written, up to the first one that the writer
  refuses. The policy does not cover that one.
* `encode_accepted`, `encode_refused`: so it is in a container.
-/

namespace AvroDocument
namespace Feed

variable {α β : Type}

/-- The results for items, up to the first one that fails. -/
def results (f : α → Except Failure β) : List α → List β
  | [] => []
  | a :: as =>
    match f a with
    | .ok b => b :: results f as
    | .error _ => []

theorem items_mapSteps (f : α → Except Failure β) (failure : Option Failure)
    (steps : List (Pulled α)) :
    (mapSteps f failure steps).items = results f (itemsOf steps) := by
  induction steps with
  | nil => rfl
  | cons step steps ih =>
    cases step with
    | warning text => exact ih
    | item a =>
      rw [mapSteps, itemsOf, results]
      cases f a with
      | error e => rfl
      | ok b => exact congrArg (b :: ·) ih

/-- A sequence ends early exactly when an item fails. -/
theorem failure_mapSteps (f : α → Except Failure β) (steps : List (Pulled α)) :
    (mapSteps f none steps).failure = none ↔
      (results f (itemsOf steps)).length = (itemsOf steps).length := by
  induction steps with
  | nil => exact ⟨fun _ => rfl, fun _ => rfl⟩
  | cons step steps ih =>
    cases step with
    | warning text => exact ih
    | item a =>
      rw [mapSteps, itemsOf, results]
      cases f a with
      | error e => simp [fail]
      | ok b => simpa [cons] using ih

end Feed

namespace Encoder

variable (e : Encoder) {docs : List Value}

/-- Preparation accepts a document, or refuses it as one that does not fit the schema. -/
def Judges (d : Value) : Prop :=
  (∃ datum, e.prepare d = .ok datum) ∨
    ∃ path expected actual fault, e.prepare d = .error (.encoding path expected actual fault)

/-- The data of the documents that preparation accepts. -/
def accepted (docs : List Value) : List Value := docs.filterMap fun d => (e.prepare d).toOption

theorem accepted_ok {d datum : Value} (h : e.prepare d = .ok datum) (docs : List Value) :
    e.accepted (d :: docs) = datum :: e.accepted docs :=
  List.filterMap_cons_some (by rw [h]; rfl)

theorem accepted_error {d : Value} {f : Failure} (h : e.prepare d = .error f)
    (docs : List Value) : e.accepted (d :: docs) = e.accepted docs :=
  List.filterMap_cons_none (by rw [h]; rfl)

/-- Documents that preparation refuses are passed over. -/
theorem prepared_accepted (hpolicy : e.options.onBadRecords ≠ .fail)
    (hd : ∀ d ∈ docs, e.Judges d) :
    (e.prepared docs).items = e.accepted docs ∧ (e.prepared docs).failure = none := by
  suffices h : ∀ index, (e.preparedFrom index docs).items = e.accepted docs ∧
      (e.preparedFrom index docs).failure = none from h 0
  induction docs with
  | nil => exact fun _ => ⟨rfl, rfl⟩
  | cons d docs ih =>
    intro index
    obtain ⟨hitems, hfailure⟩ := ih (fun d h => hd d (List.mem_cons_of_mem _ h)) (index + 1)
    rcases hd d List.mem_cons_self with ⟨datum, h⟩ | ⟨path, expected, actual, fault, h⟩
    · rw [preparedFrom, h, e.accepted_ok h]
      exact ⟨congrArg (datum :: ·) hitems, hfailure⟩
    · rw [preparedFrom, h, e.accepted_error h]
      cases hp : e.options.onBadRecords with
      | fail => exact absurd hp hpolicy
      | warn | skip => exact ⟨hitems, hfailure⟩

/-- The bytes of a datum of a container. -/
def datumBytes (datum : Value) : Except Failure (List UInt8) :=
  (Binary.write e.layout datum).mapError Encoding.writeFailure

/-- The bytes of data up to the first that the writer refuses. -/
def writtenData (data : List Value) : List (List UInt8) := Feed.results e.datumBytes data

theorem writtenData_cons (datum : Value) (data : List Value) :
    e.writtenData (datum :: data) =
      match Binary.write e.layout datum with
      | .ok bytes => bytes :: e.writtenData data
      | .error _ => [] := by
  rw [writtenData, Feed.results, datumBytes]
  cases Binary.write e.layout datum <;> rfl

theorem writeSteps_written (index : Nat) (steps : List (Pulled Value)) :
    (e.writeSteps none index steps).items = e.writtenData (Feed.itemsOf steps) ∧
      ((e.writeSteps none index steps).failure = none ↔
        (e.writtenData (Feed.itemsOf steps)).length = (Feed.itemsOf steps).length) := by
  induction steps generalizing index with
  | nil => exact ⟨rfl, fun _ => rfl, fun _ => rfl⟩
  | cons step steps ih =>
    cases step with
    | warning text => exact ih index
    | item datum =>
      obtain ⟨hitems, hfailure⟩ := ih (index + 1)
      rw [writeSteps, Feed.itemsOf, writtenData_cons, writeDatum]
      cases Binary.write e.layout datum with
      | ok bytes => exact ⟨congrArg (bytes :: ·) hitems, by simpa [Feed.cons] using hfailure⟩
      | error fault => cases fault <;> simp [Feed.fail, Feed.items, Feed.itemsOf]

/-- What the writer gives for all data is what the documents are encoded to one by one. -/
theorem writtenData_accepted
    (hw : ∀ datum ∈ e.accepted docs, ∃ bytes, Binary.write e.layout datum = .ok bytes) :
    e.writtenData (e.accepted docs) = docs.filterMap fun d => (e.encodeRecord d).toOption := by
  induction docs with
  | nil => rfl
  | cons d docs ih =>
    cases h : e.prepare d with
    | error f =>
      rw [e.accepted_error h] at hw ⊢
      rw [ih hw, List.filterMap_cons_none (by rw [encodeRecord, h]; rfl)]
    | ok datum =>
      rw [e.accepted_ok h] at hw ⊢
      obtain ⟨bytes, hbytes⟩ := hw datum List.mem_cons_self
      have hrecord : (e.encodeRecord d).toOption = some bytes := by
        rw [encodeRecord, h]
        simp only [writeDatum, hbytes]
        rfl
      have hrest := ih fun datum hmem => hw datum (List.mem_cons_of_mem _ hmem)
      rw [writtenData_cons, hbytes]
      exact (congrArg (bytes :: ·) hrest).trans
        (List.filterMap_cons_some (f := fun d => (e.encodeRecord d).toOption) hrecord).symm

theorem length_writtenData {data : List Value} :
    (e.writtenData data).length = data.length ↔
      ∀ datum ∈ data, ∃ bytes, Binary.write e.layout datum = .ok bytes := by
  induction data with
  | nil => simp [writtenData, Feed.results]
  | cons datum data ih =>
    rw [writtenData_cons]
    cases h : Binary.write e.layout datum with
    | ok bytes => simpa [h] using ih
    | error fault => simp [h]

/-- One by one, the accepted documents are written up to the first that the writer refuses. If there is
one, it ends the sequence. -/
theorem encodeRecords_accepted (hpolicy : e.options.onBadRecords ≠ .fail)
    (hd : ∀ d ∈ docs, e.Judges d) :
    (e.encodeRecords docs).items = e.writtenData (e.accepted docs) ∧
      ((e.encodeRecords docs).failure = none ↔
        ∀ datum ∈ e.accepted docs, ∃ bytes, Binary.write e.layout datum = .ok bytes) := by
  obtain ⟨hitems, hfailure⟩ := e.prepared_accepted hpolicy hd
  rw [← length_writtenData, encodeRecords, hfailure, ← hitems]
  exact e.writeSteps_written 0 (e.prepared docs).steps

section container

variable (hc : Container.codecs.contains e.options.codec = true)
  (hpolicy : e.options.onBadRecords ≠ .fail) (hd : ∀ d ∈ docs, e.Judges d)

include hpolicy hd

/-- The records of a container, and whether it ends early. -/
theorem container_records :
    ((e.prepared docs).mapItems e.datumBytes).items = e.writtenData (e.accepted docs) ∧
      (((e.prepared docs).mapItems e.datumBytes).failure = none ↔
        ∀ datum ∈ e.accepted docs, ∃ bytes, Binary.write e.layout datum = .ok bytes) := by
  obtain ⟨hitems, hfailure⟩ := e.prepared_accepted hpolicy hd
  rw [← length_writtenData, Feed.mapItems, hfailure, ← hitems]
  exact ⟨Feed.items_mapSteps _ _ _, Feed.failure_mapSteps _ _⟩

include hc

/-- If the writer refuses nothing that preparation accepts, the records of exactly the documents are
written that can be encoded on their own. -/
theorem encode_accepted
    (hw : ∀ datum ∈ e.accepted docs, ∃ bytes, Binary.write e.layout datum = .ok bytes) :
    let records := docs.filterMap fun d => (e.encodeRecord d).toOption
    let out := Container.fullBlocks e.options.syncInterval e.options.syncMarker {} records
    (e.encode docs).outcome = .ok records.length ∧
      (e.encode docs).bytes = Container.header e.schema e.options.codec e.options.syncMarker ++
        out.1 ++ out.2.flush e.options.syncMarker := by
  obtain ⟨hitems, hended⟩ := e.container_records hpolicy hd
  have hfailure := hended.mpr hw
  rw [e.writtenData_accepted hw] at hitems
  unfold datumBytes at hitems hfailure
  rw [encode, hc, if_neg (by decide)]
  simp only [hitems, hfailure]
  exact ⟨trivial, trivial⟩

/-- If the writer refuses a datum that preparation accepted, the policy does not cover it: the blocks that
were full before remain, and writing fails. -/
theorem encode_refused
    (hw : ¬ ∀ datum ∈ e.accepted docs, ∃ bytes, Binary.write e.layout datum = .ok bytes) :
    let out := Container.fullBlocks e.options.syncInterval e.options.syncMarker {}
      (e.writtenData (e.accepted docs))
    (∃ failure, (e.encode docs).outcome = .error failure) ∧
      (e.encode docs).bytes =
        Container.header e.schema e.options.codec e.options.syncMarker ++ out.1 := by
  obtain ⟨hitems, hended⟩ := e.container_records hpolicy hd
  obtain ⟨failure, hfailure⟩ := Option.ne_none_iff_exists'.mp (mt hended.mp hw)
  unfold datumBytes at hitems hfailure
  rw [encode, hc, if_neg (by decide)]
  simp only [hitems, hfailure]
  exact ⟨⟨_, rfl⟩, trivial⟩

end container

end Encoder
end AvroDocument
