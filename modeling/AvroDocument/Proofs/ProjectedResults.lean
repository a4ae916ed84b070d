import AvroDocument.Proofs.Decisions
import AvroDocument.Proofs.PassedOver
import AvroDocument.Proofs.Recovery
import AvroDocument.Proofs.Truncation
import Mathlib

/-!
# AvroDocument.Proofs.ProjectedResults

Containers that are read with a revised schema.

* `Decoder.Follows`: the results of one reader beside those of another, which shows less of each
  document and may fail on the way.
* `blocksOf_follows`: two readers of the same blocks, of which the second shows what it should of
  each datum.
* `Container.Holding`, `blocksOf_unfailing`: blocks of records that a reader takes or finds not to
  fit give their results without a failure.
* `results_projected`: a reader with a revised schema shows the projection of every document that is
  read with the first one, of a container that an encoder wrote.
* `results_projected_or_ended`: of any other container it does so up to a failure that ends its results.
-/

namespace AvroDocument
namespace Decoder

/-! ## Results beside each other -/

/-- A result beside another one: where the first is a document, the second shows a part of it. -/
structure Shows (shown : Value → Value) (first second : DecodeResult) : Prop where
  offset : second.offset = first.offset
  outcome : ∀ v, first.outcome = .ok v → second.outcome = .ok (shown v)

theorem shows_error (shown : Value → Value) (e : Failure) (offset : Nat) :
    Shows shown ⟨.error e, offset⟩ ⟨.error e, offset⟩ := ⟨rfl, fun _ h => nomatch h⟩

/-- The results of one reader beside those of another one, as far as both come; `failure` is what
ends the second, which happens where the first does not show a document. -/
inductive Follows (shown : Value → Value) (failure : Option Failure) :
    List DecodeResult → List DecodeResult → Prop
  | ended (second : List DecodeResult) : Follows shown failure [] second
  | raised {x : DecodeResult} (first : List DecodeResult) (hfailure : failure ≠ none)
      (hx : ∀ v, x.outcome ≠ .ok v) : Follows shown failure (x :: first) []
  | cons {x y : DecodeResult} {first second : List DecodeResult} (h : Shows shown x y)
      (hrest : Follows shown failure first second) :
      Follows shown failure (x :: first) (y :: second)

/-- Every document of the first reader is shown by the second, unless a failure ended the second at
an earlier record, that the first one does not show either. -/
theorem Follows.shown {shown : Value → Value} {failure : Option Failure}
    {first second : List DecodeResult} (h : Follows shown failure first second) {i offset : Nat}
    {v : Value} (hfirst : first[i]? = some ⟨.ok v, offset⟩) :
    second[i]? = some ⟨.ok (shown v), offset⟩ ∨
      failure ≠ none ∧ ∃ x ∈ first.take i, ∀ v, x.outcome ≠ .ok v := by
  induction h generalizing i with
  | ended => cases hfirst
  | @raised x first hfailure hx =>
    cases i with
    | zero =>
      obtain rfl := Option.some.inj hfirst
      exact absurd rfl (hx v)
    | succ i => exact .inr ⟨hfailure, x, List.mem_cons_self, hx⟩
  | @cons x y first second h _ ih =>
    cases i with
    | zero =>
      obtain rfl := Option.some.inj hfirst
      obtain ⟨outcome, position⟩ := y
      obtain ⟨rfl, hshown⟩ := h
      rw [List.getElem?_cons_zero, ← hshown v rfl]
      exact .inl rfl
    | succ i =>
      obtain hsecond | ⟨hfailure, x, hx, hnot⟩ := ih hfirst
      · exact .inl hsecond
      · exact .inr ⟨hfailure, x, List.mem_cons_of_mem _ hx, hnot⟩

/-- What comes behind the records of a block, if all of them were read. -/
def continued (block : Feed DecodeResult × Bool) (behind : Feed DecodeResult) :
    Feed DecodeResult :=
  if block.2 then block.1.append behind else block.1

section follows

variable {w r : Reconciler} {shown : Value → Value} {layout : Layout}

/-- Whether the second reader shows what it should of all data that are read with a layout. -/
def ShowsAll (w r : Reconciler) (shown : Value → Value) (layout : Layout) : Prop :=
  ∀ bytes datum rest v, Binary.read layout bytes = .ok (datum, rest) →
    w.toValue datum = .ok v → r.toValue datum = .ok (shown v)

/-- The result of a datum is a document when the datum has a value. -/
theorem reconcile_ok {offset : Nat} {datum : Value} {x : DecodeResult}
    (h : reconcile r offset datum = .ok x) :
    x.offset = offset ∧ ∀ v, x.outcome = .ok v ↔ r.toValue datum = .ok v := by
  unfold reconcile at h
  split at h
  · rename_i v hv
    cases h
    exact ⟨rfl, fun v' => by rw [hv]⟩
  · rename_i m hm
    split at h
    · cases h
      exact ⟨rfl, fun v => by simp [hm]⟩
    · cases h
      exact ⟨rfl, fun v => by simp [hm]⟩
  · cases h

theorem continued_cons (x : DecodeResult) (block : Feed DecodeResult × Bool)
    (behind : Feed DecodeResult) :
    continued (block.1.cons x, block.2) behind = (continued block behind).cons x := by
  obtain ⟨⟨steps, failure⟩, complete⟩ := block
  cases complete with
  | false => rfl
  | true => cases failure <;> rfl

theorem continued_empty (behind : Feed DecodeResult) : continued (.empty, true) behind = behind :=
  rfl

/-- The results of the records of a block, and of what comes behind them. -/
theorem recordsOf_follows (h : ShowsAll w r shown layout) {first second : Feed DecodeResult}
    (hbehind : Follows shown second.failure first.items second.items) (offset count index : Nat)
    (body : List UInt8) :
    Follows shown (continued (recordsOf r layout offset count index body) second).failure
      (continued (recordsOf w layout offset count index body) first).items
      (continued (recordsOf r layout offset count index body) second).items := by
  induction count generalizing index body with
  | zero =>
    rw [recordsOf, recordsOf, continued_empty, continued_empty]
    exact hbehind
  | succ count ih =>
    rw [recordsOf, recordsOf]
    cases hread : Binary.read layout body with
    | error left => exact .cons (shows_error _ _ _) (.ended _)
    | ok result =>
      obtain ⟨datum, rest⟩ := result
      simp only
      cases hfirst : reconcile w offset datum with
      | error e => exact .ended _
      | ok x =>
        cases hsecond : reconcile r offset datum with
        | error e =>
          simp only
          rw [continued_cons]
          refine .raised _ (Option.some_ne_none e) fun v hv => ?_
          have hshown := h body datum rest v hread (((reconcile_ok hfirst).2 v).mp hv)
          simp only [reconcile, hshown] at hsecond
          cases hsecond
        | ok y =>
          simp only
          rw [continued_cons, continued_cons]
          obtain ⟨hx, hdocument⟩ := reconcile_ok hfirst
          obtain ⟨hy, hvalue⟩ := reconcile_ok hsecond
          refine .cons ⟨hy.trans hx.symm, fun v hv => ?_⟩ (ih (index + 1) rest)
          exact (hvalue _).mpr (h body datum rest v hread ((hdocument v).mp hv))

/-- The results of blocks. -/
theorem blocksOf_follows {header : Container.Header} (h : ShowsAll w r shown header.layout)
    (total fuel : Nat) (bytes : List UInt8) :
    Follows shown (blocksOf r header total fuel bytes).failure
      (blocksOf w header total fuel bytes).items (blocksOf r header total fuel bytes).items := by
  induction fuel generalizing bytes with
  | zero =>
    rw [blocksOf, blocksOf]
    exact .ended _
  | succ fuel ih =>
    cases bytes with
    | nil =>
      rw [blocksOf, blocksOf]
      · exact .ended _
      all_goals simp
    | cons b bytes =>
      rw [blocksOf, blocksOf]
      · simp only
        cases hread : Container.readBlock header.sync (b :: bytes) with
        | error left => exact .cons (shows_error _ _ _) (.ended _)
        | ok result =>
          obtain ⟨block, rest⟩ := result
          exact recordsOf_follows h (ih rest) _ _ _ _
      all_goals simp

end follows

/-! ## Results without a failure -/

section unfailing

open Decoding (Settled)

variable {r : Reconciler} {layout : Layout}

/-- Bytes of a record: what is read at their front ends with them, and the reader takes it or finds
that it does not fit. -/
def Settles (r : Reconciler) (layout : Layout) (record : List UInt8) : Prop :=
  ∀ behind datum rest, Binary.read layout (record ++ behind) = .ok (datum, rest) →
    rest = behind ∧ Settled (r.toValue datum)

theorem reconcile_settled (offset : Nat) {datum : Value} (h : Settled (r.toValue datum)) :
    ∃ x, reconcile r offset datum = .ok x := by
  unfold reconcile
  split
  · exact ⟨_, rfl⟩
  · split
    · exact ⟨_, rfl⟩
    · exact ⟨_, rfl⟩
  · rename_i e hother he
    obtain ⟨m, rfl⟩ := h e he
    exact absurd rfl (hother m)

theorem recordsOf_unfailing {records : List (List UInt8)}
    (h : ∀ record ∈ records, Settles r layout record) (offset index : Nat) :
    (recordsOf r layout offset records.length index records.flatten).1.failure = none := by
  induction records generalizing index with
  | nil => rfl
  | cons record records ih =>
    rw [List.length_cons, List.flatten_cons, recordsOf]
    cases hread : Binary.read layout (record ++ records.flatten) with
    | error left => rfl
    | ok result =>
      obtain ⟨datum, rest⟩ := result
      obtain ⟨rfl, hsettled⟩ := h record List.mem_cons_self _ _ _ hread
      obtain ⟨x, hx⟩ := reconcile_settled offset hsettled
      simp only [hx]
      exact ih (fun record hrecord => h record (List.mem_cons_of_mem _ hrecord)) (index + 1)

end unfailing

end Decoder

/-! ## Blocks of records -/

namespace Container

/-- The bytes of the blocks of some groups of records. -/
def groupBytes (sync : List UInt8) (groups : List (List (List UInt8))) : List UInt8 :=
  groups.flatMap fun records => block sync records.length records.flatten

/-- Blocks of records, each with a property. -/
def Holding (P : List UInt8 → Prop) (sync bytes : List UInt8) : Prop :=
  ∃ groups, bytes = groupBytes sync groups ∧ ∀ records ∈ groups, ∀ record ∈ records, P record

/-- Records that wait, each with a property. -/
def Waiting (P : List UInt8 → Prop) (p : Pending) : Prop :=
  ∃ records : List (List UInt8),
    p = ⟨records.length, records.flatten⟩ ∧ ∀ record ∈ records, P record

section holding

variable {P : List UInt8 → Prop} {sync : List UInt8}

theorem holding_nil : Holding P sync [] := ⟨[], rfl, List.forall_mem_nil _⟩

theorem waiting_nil : Waiting P {} := ⟨[], rfl, List.forall_mem_nil _⟩

theorem Holding.imp {Q : List UInt8 → Prop} {bytes : List UInt8} (h : Holding P sync bytes)
    (himp : ∀ record, P record → Q record) : Holding Q sync bytes := by
  obtain ⟨groups, rfl, hall⟩ := h
  exact ⟨groups, rfl, fun records hrecords record hrecord =>
    himp record (hall records hrecords record hrecord)⟩

theorem Holding.append {bytes more : List UInt8} (h : Holding P sync bytes)
    (h' : Holding P sync more) : Holding P sync (bytes ++ more) := by
  obtain ⟨groups, rfl, hall⟩ := h
  obtain ⟨groups', rfl, hall'⟩ := h'
  refine ⟨groups ++ groups', List.flatMap_append.symm, fun records hrecords => ?_⟩
  obtain hrecords | hrecords := List.mem_append.mp hrecords
  · exact hall records hrecords
  · exact hall' records hrecords

theorem holding_block {records : List (List UInt8)} (h : ∀ record ∈ records, P record) :
    Holding P sync (block sync records.length records.flatten) := by
  refine ⟨[records], (List.flatMap_singleton ..).symm, fun group hgroup => ?_⟩
  rw [List.mem_singleton.mp hgroup]
  exact h

theorem Waiting.add {p : Pending} (h : Waiting P p) (interval : Int) (sync : List UInt8)
    {record : List UInt8} (hrecord : P record) :
    Holding P sync (p.add interval sync record).1 ∧ Waiting P (p.add interval sync record).2 := by
  obtain ⟨records, rfl, hall⟩ := h
  have hmore : ∀ r ∈ records ++ [record], P r := by
    intro r hr
    obtain hr | hr := List.mem_append.mp hr
    · exact hall r hr
    · rw [List.mem_singleton.mp hr]
      exact hrecord
  have hcount : (records ++ [record]).length = records.length + 1 := List.length_append
  have hbody : (records ++ [record]).flatten = records.flatten ++ record := by
    rw [List.flatten_append, List.flatten_singleton]
  rw [Pending.add, ← hbody, ← hcount]
  split
  · exact ⟨holding_block hmore, waiting_nil⟩
  · exact ⟨holding_nil, _, rfl, hmore⟩

theorem Waiting.fullBlocks {p : Pending} (h : Waiting P p) (interval : Int) (sync : List UInt8)
    {records : List (List UInt8)} (hrecords : ∀ record ∈ records, P record) :
    Holding P sync (fullBlocks interval sync p records).1 ∧
      Waiting P (fullBlocks interval sync p records).2 := by
  induction records generalizing p with
  | nil => exact ⟨holding_nil, h⟩
  | cons record records ih =>
    obtain ⟨hfull, hwaiting⟩ := h.add interval sync (hrecords record List.mem_cons_self)
    obtain ⟨hmore, hlast⟩ := ih hwaiting fun r hr => hrecords r (List.mem_cons_of_mem _ hr)
    exact ⟨hfull.append hmore, hlast⟩

theorem Waiting.flush {p : Pending} (h : Waiting P p) : Holding P sync (p.flush sync) := by
  obtain ⟨records, rfl, hall⟩ := h
  rw [Pending.flush]
  split
  · exact holding_nil
  · exact holding_block hall

/-- The bytes of a document that an encoder accepts. -/
def WrittenBy (e : Encoder) (record : List UInt8) : Prop :=
  ∃ doc datum, e.prepare doc = .ok datum ∧ Binary.write e.layout datum = .ok record

theorem prepared_of_item {e : Encoder} {docs : List Value} (index : Nat) :
    ∀ datum ∈ (e.preparedFrom index docs).items, ∃ doc, e.prepare doc = .ok datum := by
  induction docs generalizing index with
  | nil => exact List.forall_mem_nil _
  | cons doc docs ih =>
    rw [Encoder.preparedFrom]
    split
    · rename_i datum hprepare
      intro d hd
      obtain rfl | hd := List.mem_cons.mp hd
      · exact ⟨doc, hprepare⟩
      · exact ih _ d hd
    · simp only
      split
      · exact List.forall_mem_nil _
      · exact ih _
      · exact ih _
    · exact List.forall_mem_nil _

theorem results_mem {α β : Type} {f : α → Except Failure β} {as : List α} {b : β}
    (h : b ∈ Feed.results f as) : ∃ a ∈ as, f a = .ok b := by
  induction as with
  | nil => cases h
  | cons a as ih =>
    rw [Feed.results] at h
    split at h
    · rename_i b' hb'
      obtain rfl | h := List.mem_cons.mp h
      · exact ⟨a, List.mem_cons_self, hb'⟩
      · obtain ⟨a', ha', hb⟩ := ih h
        exact ⟨a', List.mem_cons_of_mem _ ha', hb⟩
    · cases h

/-- A container that an encoder writes is a header and blocks of its records, or nothing. -/
theorem encode_holding (e : Encoder) (docs : List Value) :
    (e.encode docs).bytes = [] ∨
      Container.codecs.contains e.options.codec = true ∧
      ∃ bytes, (e.encode docs).bytes =
          header e.schema e.options.codec e.options.syncMarker ++ bytes ∧
        Holding (WrittenBy e) e.options.syncMarker bytes := by
  have hwritten : ∀ record ∈ ((e.prepared docs).mapItems fun datum =>
      (Binary.write e.layout datum).mapError Encoding.writeFailure).items, WrittenBy e record := by
    intro record hrecord
    rw [Feed.mapItems, Feed.items_mapSteps] at hrecord
    obtain ⟨datum, hdatum, hwrite⟩ := results_mem hrecord
    obtain ⟨doc, hprepare⟩ := prepared_of_item 0 datum hdatum
    cases hbytes : Binary.write e.layout datum with
    | error fault =>
      rw [hbytes] at hwrite
      cases hwrite
    | ok bytes =>
      rw [hbytes] at hwrite
      cases hwrite
      exact ⟨doc, datum, hprepare, hbytes⟩
  rw [Encoder.encode]
  split
  · exact .inl rfl
  rename_i hcodec
  refine .inr ⟨by simpa using hcodec, ?_⟩
  obtain ⟨hfull, hpending⟩ :=
    waiting_nil.fullBlocks e.options.syncInterval e.options.syncMarker hwritten
  simp only
  split
  · exact ⟨_, List.append_assoc .., hfull.append hpending.flush⟩
  · exact ⟨_, rfl, hfull⟩

end holding

end Container

namespace Decoder

/-! ## Containers -/

open Container (Holding)

/-- Blocks of records that a reader takes or finds not to fit give results without a failure. -/
theorem blocksOf_unfailing {r : Reconciler} {header : Container.Header}
    (hs : header.sync.length = 16) {bytes : List UInt8}
    (h : Holding (Settles r header.layout) header.sync bytes) (total fuel : Nat) :
    (blocksOf r header total fuel bytes).failure = none := by
  obtain ⟨groups, rfl, hall⟩ := h
  induction groups generalizing fuel with
  | nil => cases fuel <;> rfl
  | cons records groups ih =>
    cases fuel with
    | zero => rfl
    | succ fuel =>
      have hrest := ih fuel fun group hgroup => hall group (List.mem_cons_of_mem _ hgroup)
      rw [Container.groupBytes, List.flatMap_cons, blocksOf]
      · simp only [Container.readBlock_block hs]
        split
        · rw [Feed.append, recordsOf_unfailing (hall records List.mem_cons_self)]
          exact hrest
        · exact recordsOf_unfailing (hall records List.mem_cons_self) _ _
      · intro hempty
        have hpos := Container.block_ne_nil header.sync records.length records.flatten
        rw [(List.append_eq_nil_iff.mp hempty).1] at hpos
        exact absurd hpos (by decide)

section results

variable {options : Options} {writer reader : Json} {w r : Decoder} {shown : Value → Value}

theorem ofSchema_parts {d : Decoder} {schema : Json}
    (h : Decoder.ofSchema options (some schema) = .ok d) :
    ∃ layout, Schema.check schema = .ok (Schema.Registry.ofSchema schema) ∧
      Layout.ofSchema schema = .ok layout ∧ layout.Regular ∧
      d = ⟨some (schema, Schema.Registry.ofSchema schema, layout), options⟩ := by
  unfold Decoder.ofSchema at h
  simp only at h
  split at h
  · cases h
  rename_i registry hcheck
  split at h
  · cases h
  rename_i layout hlayout
  cases h
  obtain ⟨rfl, hregular⟩ := Schema.regular_of_check hcheck hlayout
  exact ⟨layout, hcheck, hlayout, hregular, rfl⟩

/-- A reader that is not strict reads every container whose place and compression it knows. -/
theorem results_lenient {d : Decoder} (hlenient : d.options.strictUnknownFields = false)
    (placed : Bool) (bytes : List UInt8) :
    d.results placed bytes =
      match Container.readHeader? bytes with
      | none => .ofList [⟨.error (.decoding 0 .badHeader), 0⟩]
      | some (header, rest) =>
        if !placed then .ofList [blockFailure 0 0]
        else if !Container.codecs.contains header.codec then
          .ofList [blockFailure (bytes.length - rest.length) (bytes.length - rest.length)]
        else blocksOf (d.reconcilerFor header) header bytes.length rest.length rest := by
  rw [results]
  cases Container.readHeader? bytes with
  | none => rfl
  | some front =>
    obtain ⟨header, rest⟩ := front
    have hcheck : d.checkHeader header = .ok () := by
      unfold checkHeader
      split
      · rfl
      · rw [hlenient, if_neg Bool.false_ne_true]
    simp only [hcheck]

/-- The results of two readers of one container. -/
theorem results_follows (hw : w.options.strictUnknownFields = false)
    (hr : r.options.strictUnknownFields = false) {bytes : List UInt8}
    (h : ∀ header rest, Container.readHeader? bytes = some (header, rest) →
      ShowsAll (w.reconcilerFor header) (r.reconcilerFor header) shown header.layout)
    (placed : Bool) :
    Follows shown (r.results placed bytes).failure (w.results placed bytes).items
      (r.results placed bytes).items := by
  rw [results_lenient hw, results_lenient hr]
  cases hheader : Container.readHeader? bytes with
  | none => exact .cons (shows_error _ _ _) (.ended _)
  | some front =>
    obtain ⟨header, rest⟩ := front
    simp only
    split
    · exact .cons (shows_error _ _ _) (.ended _)
    split
    · exact .cons (shows_error _ _ _) (.ended _)
    · exact blocksOf_follows (h header rest hheader) _ _ _

end results

/-! ## Revised schemas -/

section revised

open Schema (Revises ReferenceFree DistinctAltNames project)

variable {options : Options} {writer reader : Json} {layout : Layout}

theorem layout_of_readHeader? {bytes rest : List UInt8} {header : Container.Header}
    (h : Container.readHeader? bytes = some (header, rest)) :
    Layout.ofSchema header.schema = .ok header.layout := by
  obtain ⟨-, -, entries, -, sync, -, -, -, hheader⟩ := (Container.readHeader?_iff.mp h).parts
  simp only [Container.headerOf?] at hheader
  split at hheader
  · cases hheader
  split at hheader
  rotate_left
  · cases hheader
  split at hheader
  · rename_i hlayout
    cases hheader
    exact hlayout
  · cases hheader

section

variable {w r : Reconciler}

/-- A reader with a revised schema shows the projection of the data that are read with the layout of
the first one. -/
theorem showsAll_project (hlayout : Layout.ofSchema writer = .ok layout) (hregular : layout.Regular)
    (hwriter : w.schema = writer) (hreader : r.schema = reader) (hoptions : r.options = w.options)
    (hlenient : r.strict = false) (hfree : ReferenceFree writer) (h : Revises writer reader)
    (holder : DistinctAltNames w.options.altNamesKey writer)
    (hnewer : DistinctAltNames w.options.altNamesKey reader) :
    ShowsAll w r (project w.options.altNamesKey writer reader) layout := by
  intro bytes datum rest v hread hvalue
  obtain ⟨decls, hs⟩ :=
    Schema.sound_of_layout (Schema.hereditary_typeIn writer) .whole hlayout hregular
  rw [Reconciler.toValue, hwriter] at hvalue
  rw [Reconciler.toValue, hreader]
  exact h.projects hoptions hlenient hfree holder hnewer hs.within
    (Binary.shaped_of_read hregular hread) hvalue

/-- A reader with a revised schema takes whatever an encoder with the first one writes, or finds
that it does not fit. -/
theorem settles_written (hlayout : Layout.ofSchema writer = .ok layout) (hregular : layout.Regular)
    (hreader : r.schema = reader) (hfree : ReferenceFree writer) (htidy : writer.Tidy)
    (h : Revises writer reader) {registry : Schema.Registry} {record : List UInt8}
    (hwritten : Container.WrittenBy ⟨writer, registry, layout, options⟩ record) :
    Settles r layout record := by
  obtain ⟨doc, datum, hprepare, hwrite⟩ := hwritten
  intro behind stored rest hread
  obtain ⟨decls, hs⟩ :=
    Schema.sound_of_layout (Schema.hereditary_typeIn writer) .whole hlayout hregular
  have harising : Encoding.Arising ⟨writer, registry, options, false⟩ writer datum :=
    .prepared hprepare
  obtain ⟨hrest, hshaped⟩ := recovered_arising hfree htidy layout "" writer datum hs.within harising
    record hwrite _ behind _ hread
  rw [Reconciler.toValue, hreader]
  exact ⟨hrest, h.settles hfree hs.within hshaped⟩

end

/-! ## What a reader with a revised schema shows -/

section

variable {w r : Decoder}

/-- The header of a container holds the schema that it was written with. -/
theorem header_encode {settings : Settings} (ho : Options.ofSettings settings = .ok options)
    (htidy : writer.Tidy) (hlayout : Layout.ofSchema writer = .ok layout)
    (registry : Schema.Registry) (docs : List Value) {header : Container.Header}
    {rest : List UInt8}
    (hread : Container.readHeader?
      (Encoder.encode ⟨writer, registry, layout, options⟩ docs).bytes = some (header, rest)) :
    header = ⟨writer, layout, options.codec, options.syncMarker⟩ ∧
      Container.codecs.contains header.codec = true ∧ header.sync.length = 16 ∧
      Holding (Container.WrittenBy ⟨writer, registry, layout, options⟩) header.sync rest := by
  obtain ⟨-, hmarker, hlength⟩ := ofSettings_marker ho
  obtain hempty | ⟨hcodec, bytes, hbytes, hholding⟩ :=
    Container.encode_holding ⟨writer, registry, layout, options⟩ docs
  · rw [hempty] at hread
    cases hread
  · rw [← hmarker] at hlength
    rw [hbytes, Container.readHeader?_header htidy hlayout _ hlength] at hread
    cases hread
    exact ⟨rfl, hcodec, hlength, hholding⟩

/-- A reader with a revised schema gives the results of a container that was written with the first
one without a failure. -/
theorem results_unfailing (hlenient : options.strictUnknownFields = false)
    (hr : Decoder.ofSchema options (some reader) = .ok r) (hfree : ReferenceFree writer)
    (h : Revises writer reader) {settings : Settings} {options' : Options}
    (ho : Options.ofSettings settings = .ok options') (htidy : writer.Tidy) {e : Encoder}
    (he : Encoder.ofSchema options' writer = .ok e) (docs : List Value) (placed : Bool) :
    (r.results placed (e.encode docs).bytes).failure = none := by
  obtain ⟨layout, -, hlayout, hregular, rfl⟩ := Encoder.ofSchema_parts he
  obtain ⟨-, -, -, -, rfl⟩ := ofSchema_parts hr
  rw [results_lenient hlenient]
  split
  · rfl
  rename_i header rest hread
  obtain ⟨rfl, hcodec, hlength, hholding⟩ := header_encode ho htidy hlayout _ docs hread
  split
  · rfl
  rw [hcodec, if_neg (by decide)]
  exact blocksOf_unfailing hlength
    (hholding.imp fun record => settles_written hlayout hregular rfl hfree htidy h) _ _

/-- A reader with a revised schema follows one with the first schema, as far as both come. -/
theorem results_revised (hlenient : options.strictUnknownFields = false)
    (hw : Decoder.ofSchema options (some writer) = .ok w)
    (hr : Decoder.ofSchema options (some reader) = .ok r) (hfree : ReferenceFree writer)
    (h : Revises writer reader) (holder : DistinctAltNames options.altNamesKey writer)
    (hnewer : DistinctAltNames options.altNamesKey reader) {bytes : List UInt8}
    (hheader : ∀ header rest, Container.readHeader? bytes = some (header, rest) →
      header.schema = writer)
    (placed : Bool) :
    Follows (project options.altNamesKey writer reader) (r.results placed bytes).failure
      (w.results placed bytes).items (r.results placed bytes).items := by
  obtain ⟨layout, -, hlayout, hregular, rfl⟩ := ofSchema_parts hw
  obtain ⟨-, -, -, -, rfl⟩ := ofSchema_parts hr
  refine results_follows hlenient hlenient (fun header rest hread => ?_) placed
  have hsame := layout_of_readHeader? hread
  rw [hheader header rest hread, hlayout] at hsame
  rw [← Except.ok.inj hsame]
  exact showsAll_project hlayout hregular rfl rfl rfl hlenient hfree h holder hnewer

end

/-- A reader with a revised schema shows the projection of every document that a reader with the first
schema shows, in its place, of a container that an encoder wrote with the first schema. -/
theorem results_projected {options options' : Options} {settings : Settings} {writer reader : Json}
    {w r : Decoder} {e : Encoder} (hlenient : options.strictUnknownFields = false)
    (hw : Decoder.ofSchema options (some writer) = .ok w)
    (hr : Decoder.ofSchema options (some reader) = .ok r) (hfree : ReferenceFree writer)
    (hrevises : Revises writer reader) (holder : DistinctAltNames options.altNamesKey writer)
    (hnewer : DistinctAltNames options.altNamesKey reader)
    (ho : Options.ofSettings settings = .ok options') (htidy : writer.Tidy)
    (he : Encoder.ofSchema options' writer = .ok e) (docs : List Value) {placed : Bool} {i : Nat}
    {v : Value} {offset : Nat}
    (hitem : (w.results placed (e.encode docs).bytes).items[i]? = some ⟨.ok v, offset⟩) :
    (r.results placed (e.encode docs).bytes).items[i]? =
      some ⟨.ok (project options.altNamesKey writer reader v), offset⟩ := by
  have hnone := results_unfailing hlenient hr hfree hrevises ho htidy he docs placed
  obtain ⟨layout, -, hlayout, -, rfl⟩ := Encoder.ofSchema_parts he
  obtain hshown | ⟨hfailure, -⟩ :=
    (results_revised hlenient hw hr hfree hrevises holder hnewer
      (fun header rest hread => by rw [(header_encode ho htidy hlayout _ docs hread).1])
      placed).shown hitem
  · exact hshown
  · exact absurd hnone hfailure

/-- A record with a flag and a list of records, read with a schema that has them the other way round
and a note besides, and whose inner records have lost a field and gained one with a default. -/
theorem results_projected_nested :
    let flag : Json := .obj [("name", .str "n"), ("type", .str "boolean")]
    let mark : Json := .obj [("name", .str "x"), ("type", .str "boolean"),
      ("altnames", .obj [("json", .str "X")])]
    let unit : Json := .obj [("name", .str "u"), ("type", .str "string"), ("default", .str "v")]
    let note : Json := .obj [("name", .str "z"), ("type", .arr [.str "null", .str "string"])]
    let record (name : String) (fields : List Json) : Json :=
      .obj [("type", .str "record"), ("name", .str name), ("fields", .arr fields)]
    let array (items : Json) : Json := .obj [("type", .str "array"), ("items", items)]
    let list (items : Json) : Json :=
      .obj [("name", .str "b"), ("type", .arr [.str "null", array items])]
    let writer := record "A" [flag, list (record "B" [mark, flag])]
    let reader := record "A" [list (record "B" [unit, mark]), note, flag]
    let doc : Value := .struct [(.text "n", .bool true),
      (.text "b", .list [.struct [(.text "X", .bool true), (.text "n", .bool false)]])]
    let shown : Value := .struct [
      (.text "b", .list [.struct [(.text "u", .text "v"), (.text "X", .bool true)]]),
      (.text "z", .null), (.text "n", .bool true)]
    let options := Options.standard "A" "" (List.replicate 16 7)
    ∃ w r e offset, options.strictUnknownFields = false ∧
      Decoder.ofSchema options (some writer) = .ok w ∧
      Decoder.ofSchema options (some reader) = .ok r ∧ ReferenceFree writer ∧
      Revises writer reader ∧ DistinctAltNames options.altNamesKey writer ∧
      DistinctAltNames options.altNamesKey reader ∧ writer.Tidy ∧
      Encoder.ofSchema options writer = .ok e ∧
      (w.results true (e.encode [doc]).bytes).items[0]? = some ⟨.ok doc, offset⟩ ∧
      (r.results true (e.encode [doc]).bytes).items[0]? = some ⟨.ok shown, offset⟩ := by
  intro flag mark unit note record array list writer reader doc shown options
  let inner : Json := record "B" [mark, flag]
  let inner' : Json := record "B" [unit, mark]
  let plain (type : Primitive) : Layout := .primitive type none
  let layout : Layout := .record "A" [("n", none, plain .boolean),
    ("b", none, .union [plain .null,
      .array (.record "B" [("x", none, plain .boolean), ("n", none, plain .boolean)])])]
  let layout' : Layout := .record "A" [
    ("b", none, .union [plain .null,
      .array (.record "B" [("u", some (.str "v"), plain .string), ("x", none, plain .boolean)])]),
    ("z", none, .union [plain .null, plain .string]), ("n", none, plain .boolean)]
  have hlayout : Layout.ofSchema writer = .ok layout := by decide +kernel
  have hlayout' : Layout.ofSchema reader = .ok layout' := by decide +kernel
  have hcheck : Schema.check writer = .ok (Schema.Registry.ofSchema writer) := by decide +kernel
  have hcheck' : Schema.check reader = .ok (Schema.Registry.ofSchema reader) := by decide +kernel
  let w : Decoder := ⟨some (writer, Schema.Registry.ofSchema writer, layout), options⟩
  let r : Decoder := ⟨some (reader, Schema.Registry.ofSchema reader, layout'), options⟩
  let e : Encoder := ⟨writer, Schema.Registry.ofSchema writer, layout, options⟩
  have hw : Decoder.ofSchema options (some writer) = .ok w :=
    Decoder.ofSchema_eq _ hcheck hlayout
  have hr : Decoder.ofSchema options (some reader) = .ok r :=
    Decoder.ofSchema_eq _ hcheck' hlayout'
  have he : Encoder.ofSchema options writer = .ok e :=
    Encoder.ofSchema_eq _ hcheck hlayout
  have hfree : ReferenceFree writer :=
    Schema.referenceFree_of_holdsDown (show Schema.holdsDown _ 5 writer = true by decide +kernel)
  have hwriter : DistinctAltNames options.altNamesKey writer :=
    Schema.distinctAltNames_of_holdsDown (show Schema.holdsDown _ 5 writer = true by decide +kernel)
  have hreader : DistinctAltNames options.altNamesKey reader :=
    Schema.distinctAltNames_of_holdsDown (show Schema.holdsDown _ 5 reader = true by decide +kernel)
  have htidy : writer.Tidy := by
    simp [writer, record, list, array, flag, mark, Json.tidy_obj_iff, Json.tidy_arr_iff,
      Json.Tidy.str]
  have hrevises : Revises writer reader := by
    have hplain (type : Primitive) : Revises (.str type.name) (.str type.name) := by
      cases type <;> exact .leaf (by simp) (by decide) (by decide)
    have hinner : Revises inner inner' := by
      refine .of_fields rfl (Schema.sameBut_last "fields" [_, _] _ _) (by decide) ?_
      show ∀ f ∈ [unit, mark], _
      simp only [List.forall_mem_cons]
      exact ⟨.inr ⟨by decide, .inr rfl⟩,
        .inl ⟨mark, List.mem_cons_self, rfl, fun _ _ => rfl, hplain .boolean⟩, List.forall_mem_nil _⟩
    have harray : Revises (array inner) (array inner') :=
      .array rfl (Schema.sameBut_last "items" [_] _ _) hinner
    have hlist : Revises (.arr [.str "null", array inner]) (.arr [.str "null", array inner']) := by
      have hmembers : ∀ m ∈ [(Json.str "null", Json.str "null"), (array inner, array inner')],
          Revises m.1 m.2 := by
        simp only [List.forall_mem_cons]
        exact ⟨hplain .null, harray, List.forall_mem_nil _⟩
      exact .union hmembers
    refine .of_fields rfl (Schema.sameBut_last "fields" [_, _] _ _) (by decide) ?_
    show ∀ f ∈ [list inner', note, flag], _
    simp only [List.forall_mem_cons]
    exact ⟨.inl ⟨list inner, List.mem_cons_of_mem _ List.mem_cons_self, rfl,
        Schema.sameBut_last "type" [_] _ _, hlist⟩,
      .inr ⟨by decide, .inl rfl⟩,
      .inl ⟨flag, List.mem_cons_self, rfl, fun _ _ => rfl, hplain .boolean⟩, List.forall_mem_nil _⟩
  have ho := ofSettings_standard "A" "" (show (List.replicate 16 (7 : UInt8)).length = 16 by decide)
  have hdoc : (e.encodeRecord doc >>= w.decodeRecord) = .ok (id doc) := by cbv
  have hshown : project options.altNamesKey writer reader doc = shown := by cbv
  obtain ⟨-, ⟨results, hresults, houtcomes⟩, -⟩ :=
    delivers_records ho rfl htidy he hw rfl (List.forall_mem_singleton.mpr hdoc)
  obtain ⟨⟨outcome, offset⟩, rfl, rfl⟩ := List.map_eq_singleton_iff.mp houtcomes
  have hitem : (w.results true (e.encode [doc]).bytes).items[0]? = some ⟨.ok doc, offset⟩ := by
    rw [hresults]
    rfl
  refine ⟨w, r, e, offset, rfl, hw, hr, hfree, hrevises, hwriter, hreader, htidy, he, hitem, ?_⟩
  rw [← hshown]
  exact results_projected rfl hw hr hfree hrevises hwriter hreader ho htidy he [doc] hitem

/-- In any container that has the first schema in its header, a failure may end what the reader with the
revised one shows, but only at a record that the reader with the first schema does not show either. -/
theorem results_projected_or_ended {options : Options} {writer reader : Json} {w r : Decoder}
    (hlenient : options.strictUnknownFields = false)
    (hw : Decoder.ofSchema options (some writer) = .ok w)
    (hr : Decoder.ofSchema options (some reader) = .ok r) (hfree : ReferenceFree writer)
    (hrevises : Revises writer reader) (holder : DistinctAltNames options.altNamesKey writer)
    (hnewer : DistinctAltNames options.altNamesKey reader) {bytes rest : List UInt8}
    {header : Container.Header} (hread : Container.readHeader? bytes = some (header, rest))
    (hschema : header.schema = writer) {placed : Bool} {i : Nat} {v : Value} {offset : Nat}
    (hitem : (w.results placed bytes).items[i]? = some ⟨.ok v, offset⟩) :
    (r.results placed bytes).items[i]? =
        some ⟨.ok (project options.altNamesKey writer reader v), offset⟩ ∨
      (r.results placed bytes).failure ≠ none ∧
        ∃ x ∈ (w.results placed bytes).items.take i, ∀ v, x.outcome ≠ .ok v := by
  refine (results_revised hlenient hw hr hfree hrevises holder hnewer (fun header' rest' h => ?_)
    placed).shown hitem
  rw [hread] at h
  cases h
  exact hschema

end revised

end Decoder

end AvroDocument
