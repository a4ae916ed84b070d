import AvroDocument.Proofs.ContainerPath

/-!
# AvroDocument.Proofs.Truncation

What is read from a container that was cut off.

* `Container.Whole`: a header with complete blocks behind it.
* `Decoder.blocksOf_truncated`: the blocks in front of the cut give the results that they give in the
  whole container; one failure follows unless the cut is between two blocks.
* `results_truncated`: so does every container that was written and is read without a failure.
-/

namespace AvroDocument
namespace Container

/-! ## Blocks -/

def Block.bytes (sync : List UInt8) (b : Block) : List UInt8 := block sync b.count b.body

/-- A header with complete blocks behind it. -/
def Whole (head sync bytes : List UInt8) : Prop :=
  ∃ blocks : List Block, bytes = head ++ blocks.flatMap (Block.bytes sync)

section whole

variable {head sync bytes : List UInt8}

theorem whole_head : Whole head sync head := ⟨[], (List.append_nil _).symm⟩

theorem Whole.add (h : Whole head sync bytes) (b : Block) :
    Whole head sync (bytes ++ b.bytes sync) := by
  obtain ⟨blocks, rfl⟩ := h
  refine ⟨blocks ++ [b], ?_⟩
  rw [List.flatMap_append, List.flatMap_singleton, List.append_assoc]

theorem Whole.fullBlocks (h : Whole head sync bytes) (interval : Int) (p : Pending)
    (records : List (List UInt8)) :
    Whole head sync (bytes ++ (fullBlocks interval sync p records).1) := by
  induction records generalizing bytes p with
  | nil =>
    rw [Container.fullBlocks, List.append_nil]
    exact h
  | cons record records ih =>
    rw [Container.fullBlocks]
    simp only [Pending.add]
    split
    · rw [← List.append_assoc]
      exact ih (h.add ⟨p.count + 1, p.body ++ record⟩) _
    · exact ih h _

theorem Whole.flush (h : Whole head sync bytes) (p : Pending) :
    Whole head sync (bytes ++ p.flush sync) := by
  rw [Pending.flush]
  split
  · rw [List.append_nil]
    exact h
  · exact h.add ⟨p.count, p.body⟩

end whole

theorem readBlock_bytes {sync : List UInt8} (hs : sync.length = 16) (b : Block)
    (rest : List UInt8) : readBlock sync (b.bytes sync ++ rest) = .ok (b, rest) :=
  readBlock_block hs b.count b.body rest

/-- A block that stops before its end is not read. -/
theorem readBlock_cut {sync : List UInt8} (hs : sync.length = 16) (b : Block)
    {bytes behind : List UInt8} (hfront : bytes <+: b.bytes sync ++ behind)
    (hlength : bytes.length < (b.bytes sync).length) : ∃ left, readBlock sync bytes = .error left := by
  cases hread : readBlock sync bytes with
  | error left => exact ⟨left, rfl⟩
  | ok result =>
    obtain ⟨b', rest⟩ := result
    obtain ⟨body, rfl, hmore⟩ := readBlock_extent sync _ _ _ hread
    obtain ⟨missing, hmissing⟩ := hfront
    rw [List.append_assoc] at hmissing
    have hwhole := readBlock_bytes hs b behind
    rw [← hmissing, hmore] at hwhole
    cases hwhole
    rw [List.append_cancel_right hmissing] at hlength
    rw [List.length_append] at hlength
    omega

/-- Complete blocks are none, or start with one that is read. -/
theorem Whole.read {sync bytes : List UInt8} (h : Whole [] sync bytes) (hs : sync.length = 16) :
    bytes = [] ∨ ∃ b rest, readBlock sync bytes = .ok (b, rest) ∧ Whole [] sync rest := by
  obtain ⟨blocks, rfl⟩ := h
  cases blocks with
  | nil => exact .inl rfl
  | cons b blocks => exact .inr ⟨b, _, readBlock_bytes hs b _, blocks, rfl⟩

theorem whole_cons {sync : List UInt8} (hs : sync.length = 16) (b : Block) (rest : List UInt8) :
    Whole [] sync (b.bytes sync ++ rest) ↔ Whole [] sync rest := by
  have hread := readBlock_bytes hs b rest
  constructor
  · intro h
    obtain hempty | ⟨b', rest', hread', hrest⟩ := h.read hs
    · rw [hempty] at hread
      cases hread
    · cases hread.symm.trans hread'
      exact hrest
  · rintro ⟨blocks, rfl⟩
    exact ⟨b :: blocks, rfl⟩

theorem whole_append_iff {head sync bytes : List UInt8} :
    Whole head sync (head ++ bytes) ↔ Whole [] sync bytes := by
  simp only [Whole, List.append_cancel_left_eq, List.nil_append]

theorem headerOf?_sync {entries : List (Key × Value)} {sync : List UInt8} {header : Header}
    (h : headerOf? entries sync = some header) : header.sync = sync := by
  simp only [headerOf?] at h
  split at h
  · cases h
  · split at h
    · split at h
      · cases h
        rfl
      · cases h
    · cases h

/-- What is written to a container is whole, also when a document fails. -/
theorem encode_whole (e : Encoder) (hc : codecs.contains e.options.codec = true)
    (docs : List Value) :
    Whole (header e.schema e.options.codec e.options.syncMarker) e.options.syncMarker
      (e.encode docs).bytes := by
  have hhead : Whole (header e.schema e.options.codec e.options.syncMarker) e.options.syncMarker
      (header e.schema e.options.codec e.options.syncMarker) := whole_head
  rw [Encoder.encode, hc, if_neg (by decide)]
  simp only
  split
  · exact (hhead.fullBlocks _ _ _).flush _
  · exact hhead.fullBlocks _ _ _

end Container

/-! ## Results without a failure -/

namespace Feed

variable {α : Type}

theorem ofList_inj {items items' : List α} : ofList items = ofList items' ↔ items = items' := by
  constructor
  · intro h
    exact (List.map_inj_right fun _ _ => Pulled.item.inj).mp (congrArg Feed.steps h)
  · exact congrArg ofList

theorem cons_eq_ofList {a : α} {feed : Feed α} {items : List α} (h : feed.cons a = ofList items) :
    ∃ rest, feed = ofList rest ∧ items = a :: rest := by
  obtain ⟨steps, failure⟩ := feed
  simp only [cons, ofList, Feed.mk.injEq] at h
  obtain ⟨hsteps, rfl⟩ := h
  cases items with
  | nil => cases hsteps
  | cons b rest =>
    rw [List.map_cons, List.cons.injEq, Pulled.item.injEq] at hsteps
    obtain ⟨rfl, rfl⟩ := hsteps
    exact ⟨rest, rfl, rfl⟩

theorem append_eq_ofList {first second : Feed α} {items : List α}
    (h : first.append second = ofList items) :
    ∃ before behind, first = ofList before ∧ second = ofList behind ∧ items = before ++ behind := by
  obtain ⟨steps, failure⟩ := first
  cases failure with
  | some e =>
    simp only [append, ofList, Feed.mk.injEq, reduceCtorEq, and_false] at h
  | none =>
    obtain ⟨more, failure⟩ := second
    simp only [append, ofList, Feed.mk.injEq] at h
    obtain ⟨hsteps, rfl⟩ := h
    obtain ⟨before, behind, rfl, rfl, rfl⟩ := List.map_eq_append_iff.mp hsteps.symm
    exact ⟨before, behind, rfl, rfl, rfl⟩

theorem ofList_append (before behind : List α) :
    (ofList before).append (ofList behind) = ofList (before ++ behind) := by
  simp only [append, ofList, List.map_append]

end Feed

/-- Results that are all documents. -/
def AllRead (results : List DecodeResult) : Prop := ∀ result ∈ results, ∃ v, result.outcome = .ok v

/-- What comes behind the results of complete blocks: nothing, or one failure. -/
def Ends (whole : Prop) (tail : List DecodeResult) : Prop :=
  (tail = [] ∧ whole) ∨
    (¬ whole ∧ ∃ consumed fault position, tail = [⟨.error (.decoding consumed fault), position⟩])

theorem Ends.congr {whole whole' : Prop} {tail : List DecodeResult} (h : Ends whole tail)
    (hw : whole' ↔ whole) : Ends whole' tail := by
  rw [Ends, hw]
  exact h

namespace Decoder

open Container (Block Whole)

section blocks

variable {r : Reconciler}

/-- A block whose results are all documents was read to its end. -/
theorem recordsOf_complete {layout : Layout} {offset count index : Nat} {body : List UInt8}
    {results : List DecodeResult} {complete : Bool}
    (h : recordsOf r layout offset count index body = (Feed.ofList results, complete))
    (hall : AllRead results) : complete = true := by
  induction count generalizing index body results with
  | zero =>
    rw [recordsOf] at h
    exact (congrArg Prod.snd h).symm
  | succ count ih =>
    rw [recordsOf] at h
    split at h
    · obtain ⟨hfeed, _⟩ := Prod.mk.inj h
      rw [← Feed.ofList_inj.mp hfeed] at hall
      obtain ⟨v, hv⟩ := hall _ List.mem_cons_self
      cases hv
    · split at h
      · obtain ⟨hfeed, _⟩ := Prod.mk.inj h
        cases congrArg Feed.failure hfeed
      · obtain ⟨hfeed, hcomplete⟩ := Prod.mk.inj h
        obtain ⟨rest, hrest, rfl⟩ := Feed.cons_eq_ofList hfeed
        exact ih (Prod.ext hrest hcomplete) fun result hresult =>
          hall result (List.mem_cons_of_mem _ hresult)

/-- Bytes that start with a block are read up to its end. -/
theorem blocksOf_bytes {header : Container.Header} (hs : header.sync.length = 16) (b : Block)
    (rest : List UInt8) (start : Nat) {fuel : Nat}
    (hfuel : (b.bytes header.sync ++ rest).length ≤ fuel) :
    ∃ fuel', rest.length ≤ fuel' ∧
      blocksOf r header (start + (b.bytes header.sync ++ rest).length) fuel
          (b.bytes header.sync ++ rest) =
        let (feed, complete) := recordsOf r header.layout start b.count 0 b.body
        if complete then
          feed.append (blocksOf r header (start + (b.bytes header.sync).length + rest.length)
            fuel' rest)
        else feed := by
  have hpos : 0 < (b.bytes header.sync).length := Container.block_ne_nil _ _ _
  have hlength : (b.bytes header.sync ++ rest).length =
      (b.bytes header.sync).length + rest.length := List.length_append
  obtain ⟨fuel, rfl⟩ : ∃ n, fuel = n + 1 := ⟨fuel - 1, by omega⟩
  refine ⟨fuel, by omega, ?_⟩
  have hread : Container.readBlock header.sync (b.bytes header.sync ++ rest) = .ok (b, rest) :=
    Container.readBlock_block hs b.count b.body rest
  rw [blocksOf]
  · simp only [hread, Nat.add_sub_cancel, hlength, Nat.add_assoc]
  · intro h
    rw [h] at hread
    cases hread

/-- Bytes that stop inside a block give one failure. -/
theorem blocksOf_cut {header : Container.Header} {bytes left : List UInt8}
    (hread : Container.readBlock header.sync bytes = .error left) (hne : bytes ≠ []) (total : Nat)
    {fuel : Nat} (hfuel : bytes.length ≤ fuel) :
    blocksOf r header total fuel bytes =
      .ofList [blockFailure (total - left.length) (total - bytes.length)] := by
  have hpos := List.length_pos_iff.mpr hne
  obtain ⟨fuel, rfl⟩ : ∃ n, fuel = n + 1 := ⟨fuel - 1, by omega⟩
  rw [blocksOf]
  · simp only [hread]
  · exact hne

/-- The blocks in front of the cut give the results that they give in the whole container. One
failure follows, unless the cut is between two blocks. -/
theorem blocksOf_truncated {header : Container.Header} (hs : header.sync.length = 16)
    {blocks : List Block} {start : Nat} {bytes : List UInt8} {results : List DecodeResult}
    {fuel fuel' : Nat} (hfront : bytes <+: blocks.flatMap (Block.bytes header.sync))
    (hfuel : (blocks.flatMap (Block.bytes header.sync)).length ≤ fuel)
    (hfuel' : bytes.length ≤ fuel')
    (hall : AllRead results)
    (h : blocksOf r header (start + (blocks.flatMap (Block.bytes header.sync)).length) fuel
      (blocks.flatMap (Block.bytes header.sync)) = Feed.ofList results) :
    ∃ before tail, blocksOf r header (start + bytes.length) fuel' bytes =
        Feed.ofList (before ++ tail) ∧ before <+: results ∧
      Ends (Whole [] header.sync bytes) tail := by
  induction blocks generalizing start bytes results fuel fuel' with
  | nil =>
    cases List.prefix_nil.mp hfront
    exact ⟨[], [], by cases fuel' <;> rfl, List.nil_prefix, .inl ⟨rfl, Container.whole_head⟩⟩
  | cons b blocks ih =>
    rw [List.flatMap_cons] at hfront hfuel h
    by_cases hempty : bytes = []
    · subst hempty
      exact ⟨[], [], by cases fuel' <;> rfl, List.nil_prefix, .inl ⟨rfl, Container.whole_head⟩⟩
    by_cases hlength : bytes.length < (b.bytes header.sync).length
    · obtain ⟨left, hleft⟩ := Container.readBlock_cut hs b hfront hlength
      have hcut : ¬ Whole [] header.sync bytes := by
        intro hwhole
        obtain rfl | ⟨b', rest, hread, -⟩ := hwhole.read hs
        · exact hempty rfl
        · cases hleft.symm.trans hread
      exact ⟨[], _, blocksOf_cut hleft hempty _ hfuel', List.nil_prefix,
        .inr ⟨hcut, _, _, _, rfl⟩⟩
    -- The first block is complete, and so it gives its results on both sides.
    obtain ⟨more, rfl⟩ := List.prefix_of_prefix_length_le (List.prefix_append _ _) hfront
      (Nat.le_of_not_lt hlength)
    rw [List.prefix_append_right_inj] at hfront
    obtain ⟨fuelFull, hfuelFull, hfull⟩ := blocksOf_bytes (r := r) hs b _ start hfuel
    obtain ⟨fuelCut, hfuelCut, hcut⟩ := blocksOf_bytes (r := r) hs b _ start hfuel'
    rw [hfull] at h
    rw [hcut]
    cases hrecords : recordsOf r header.layout start b.count 0 b.body with
    | mk feed complete =>
      simp only [hrecords] at h ⊢
      cases complete with
      | false => cases recordsOf_complete (hrecords.trans (congrArg (·, false) h)) hall
      | true =>
        obtain ⟨first, behind, rfl, hbehind, rfl⟩ := Feed.append_eq_ofList h
        obtain ⟨before, tail, htruncated, hbefore, hends⟩ := ih hfront hfuelFull hfuelCut
          (fun result hresult => hall result (List.mem_append_right _ hresult)) hbehind
        refine ⟨first ++ before, tail, ?_, (List.prefix_append_right_inj _).mpr hbefore, ?_⟩
        · rw [if_pos rfl, htruncated, Feed.ofList_append, List.append_assoc]
        · exact hends.congr (Container.whole_cons hs b more)

end blocks

/-! ## Containers -/

section container

variable {d : Decoder} {schema : Json} {codec : String} {sync : List UInt8}

/-- Bytes that stop inside the header are no container. -/
theorem readHeader?_cut {bytes behind : List UInt8}
    {header : Container.Header}
    (hread : Container.readHeader? (Container.header schema codec sync ++ behind) =
      some (header, behind))
    (hfront : bytes <+: Container.header schema codec sync ++ behind)
    (hlength : bytes.length < (Container.header schema codec sync).length) :
    Container.readHeader? bytes = none := by
  cases hcut : Container.readHeader? bytes with
  | none => rfl
  | some result =>
    obtain ⟨header', rest⟩ := result
    obtain ⟨body, rfl, hmore⟩ := Container.readHeader?_extent hcut
    obtain ⟨missing, hmissing⟩ := hfront
    rw [List.append_assoc] at hmissing
    rw [← hmissing, hmore _ (by rw [List.length_append]; omega)] at hread
    cases hread
    obtain rfl := List.append_cancel_right hmissing
    rw [List.length_append] at hlength
    omega

/-- Results that are one failure are not all documents. -/
theorem not_allRead {results : List DecodeResult} {failure : Failure} {offset : Nat}
    (h : Feed.ofList [⟨.error failure, offset⟩] = Feed.ofList results) : ¬ AllRead results := by
  intro hall
  rw [← Feed.ofList_inj.mp h] at hall
  obtain ⟨v, hv⟩ := hall _ List.mem_cons_self
  cases hv

/-- Without a schema of its own a decoder reads the blocks of every container whose place and
compression it knows. -/
theorem results_schemaless (hd : d.schema = none) {bytes rest : List UInt8}
    {header : Container.Header} (hread : Container.readHeader? bytes = some (header, rest))
    (placed : Bool) :
    d.results placed bytes =
      if !placed then .ofList [blockFailure 0 0]
      else if !Container.codecs.contains header.codec then
        .ofList [blockFailure (bytes.length - rest.length) (bytes.length - rest.length)]
      else blocksOf (d.reconcilerFor header) header bytes.length rest.length rest := by
  have hcheck : d.checkHeader header = .ok () := by rw [checkHeader, hd]
  rw [Decoder.results, hread]
  simp only [hcheck]

theorem results_cut (hs : sync.length = 16) (hd : d.schema = none) {placed : Bool}
    {blocks : List Block} {bytes : List UInt8} {results : List DecodeResult}
    (hfront : bytes <+: Container.header schema codec sync ++ blocks.flatMap (Block.bytes sync))
    (h : d.results placed (Container.header schema codec sync ++
      blocks.flatMap (Block.bytes sync)) = Feed.ofList results)
    (hall : AllRead results) :
    ∃ before tail, d.results placed bytes = Feed.ofList (before ++ tail) ∧ before <+: results ∧
      Ends (Whole (Container.header schema codec sync) sync bytes) tail := by
  have hread := Container.readHeader?_entries schema codec hs
  cases hheader : Container.headerOf? (Container.headerEntries codec
      (schema.text Json.Style.ascii)) sync with
  | none =>
    rw [Decoder.results, hread, hheader] at h
    exact absurd hall (not_allRead h)
  | some header =>
    simp only [hheader, Option.map_some] at hread
    have hsync : header.sync = sync := Container.headerOf?_sync hheader
    by_cases hlength : bytes.length < (Container.header schema codec sync).length
    · refine ⟨[], _, by rw [Decoder.results, readHeader?_cut (hread _) hfront hlength]; rfl,
        List.nil_prefix, .inr ⟨?_, _, _, _, rfl⟩⟩
      rintro ⟨blocks, rfl⟩
      rw [List.length_append] at hlength
      omega
    obtain ⟨more, rfl⟩ := List.prefix_of_prefix_length_le (List.prefix_append _ _) hfront
      (Nat.le_of_not_lt hlength)
    rw [List.prefix_append_right_inj] at hfront
    rw [results_schemaless hd (hread _)] at h ⊢
    split at h
    · exact absurd hall (not_allRead h)
    rename_i hplaced
    split at h
    · exact absurd hall (not_allRead h)
    rename_i hcodec
    subst hsync
    rw [if_neg hplaced, if_neg hcodec]
    rw [List.length_append] at h ⊢
    obtain ⟨before, tail, hcut, hbefore, hends⟩ := blocksOf_truncated hs hfront (Nat.le_refl _)
      (Nat.le_refl _) hall h
    exact ⟨before, tail, hcut, hbefore, hends.congr Container.whole_append_iff⟩

end container

end Decoder

theorem Encoder.ofSchema_ok {options : Options} {schema : Json} {e : Encoder}
    (h : Encoder.ofSchema options schema = .ok e) :
    ∃ registry layout, e = ⟨schema, registry, layout, options⟩ := by
  unfold Encoder.ofSchema at h
  split at h
  · cases h
  · split at h
    · cases h
    · cases h
      exact ⟨_, _, rfl⟩

theorem Decoder.ofSchema_none {options : Options} {d : Decoder}
    (h : Decoder.ofSchema options none = .ok d) : d.schema = none := by
  cases h
  rfl

open Container (Whole)

/-- A container that was written and is read without a failure is cut off anywhere. The complete
blocks in front of the cut give the results that they give in the whole container, and behind them
comes one failure to decode unless the cut is between two blocks. -/
theorem results_truncated {settings : Settings} {options options' : Options}
    (ho : Options.ofSettings settings = .ok options) (hcodec : settings.codec = "null")
    {schema : Json} {e : Encoder} (he : Encoder.ofSchema options schema = .ok e)
    (docs : List Value) {d : Decoder} (hd : Decoder.ofSchema options' none = .ok d) {placed : Bool}
    {results : List DecodeResult}
    (hresults : d.results placed (e.encode docs).bytes = Feed.ofList results)
    (hall : AllRead results) {bytes : List UInt8} (hfront : bytes <+: (e.encode docs).bytes) :
    ∃ before tail, d.results placed bytes = Feed.ofList (before ++ tail) ∧ before <+: results ∧
      Ends (Whole (Container.header schema "null" settings.syncMarker) settings.syncMarker bytes)
        tail := by
  obtain ⟨hcodecs, hmarker, hlength⟩ := ofSettings_marker ho
  obtain ⟨registry, layout, rfl⟩ := Encoder.ofSchema_ok he
  have hnull : options.codec = "null" := hcodecs.trans hcodec
  have hwhole := Container.encode_whole ⟨schema, registry, layout, options⟩
    (by rw [hnull]; decide) docs
  rw [hnull, hmarker] at hwhole
  obtain ⟨blocks, hblocks⟩ := hwhole
  rw [hblocks] at hresults hfront
  exact Decoder.results_cut hlength (Decoder.ofSchema_none hd) hfront hresults hall

/-- The container of two documents of one key, without its last byte. -/
theorem results_truncated_last :
    let docs := [Value.struct [(.text "a b", .int 1)], .struct [(.text "a b", .text "x")]]
    let settings : Settings := { typeName := "Document", syncMarker := List.replicate 16 7 }
    ∃ options schema e d results,
      Options.ofSettings settings = .ok options ∧ settings.codec = "null" ∧
      Encoder.ofSchema options schema = .ok e ∧ Decoder.ofSchema options none = .ok d ∧
      d.results true (e.encode docs).bytes = Feed.ofList results ∧ AllRead results ∧
      (e.encode docs).bytes.dropLast <+: (e.encode docs).bytes ∧
      ∃ before tail,
        d.results true (e.encode docs).bytes.dropLast = Feed.ofList (before ++ tail) ∧
        before <+: results ∧
        Ends (Whole (Container.header schema "null" settings.syncMarker) settings.syncMarker
          (e.encode docs).bytes.dropLast) tail := by
  intro docs settings
  have hdocs : ∀ d ∈ docs, d.IsStruct ∧ Supported d ∧ DistinctKeys d ∧ ReadableIntegers d ∧
    InCalendar d := by decide
  obtain ⟨options, schema, e, d, value, ho, ht, he, hr, hdocs⟩ := Inference.records_inferred
    "Document" "" (show (List.replicate 16 7).length = 16 by decide) hdocs
  obtain ⟨-, -, results, hresults, hvalues⟩ := delivers_records ho rfl ht he hr rfl hdocs
  have hall : AllRead results := by
    intro result hmem
    have hvalue := List.mem_map_of_mem (f := (·.outcome)) hmem
    rw [hvalues] at hvalue
    obtain ⟨v, -, hv⟩ := List.mem_map.mp hvalue
    exact ⟨v, hv.symm⟩
  exact ⟨options, schema, e, _, results, ho, rfl, he, rfl, hresults, hall, List.dropLast_prefix _,
    results_truncated ho rfl he docs rfl hresults hall (List.dropLast_prefix _)⟩

end AvroDocument
