import AvroDocument.Decoding
import AvroDocument.Proofs.Extent
import AvroDocument.Proofs.JsonText
import AvroDocument.Proofs.Layouts

/-!
# AvroDocument.Proofs.Containers

Containers are read back part by part.

* `readHeader?_header`: the header gives back schema, compression and sync marker.
* `Delivers`: a sequence of results that are all documents.
* `blocksOf_blocks`: the blocks of some records deliver their documents, wherever blocks were closed.
-/

namespace AvroDocument
namespace Container

open Binary (readInt_writeInt readSized_writeBytes readText_writeText takeBytes_append)

/-! ## Headers -/

section header

variable {types : Declarations} {fuel : Nat}

theorem readEntry_text (count : Nat) (key value : String) (taken : List (Key × Value))
    (rest : List UInt8) :
    Binary.readEntries types fuel (.primitive .bytes none) (count + 1) taken
        (Binary.writeText key ++ (Binary.writeText value ++ rest)) =
      Binary.readEntries types fuel (.primitive .bytes none) count
        (Value.setEntry key (.bytes (Text.utf8 value)) taken) rest := by
  have hvalue : Binary.readDatum types fuel (.primitive .bytes none)
      (Binary.writeText value ++ rest) = .ok (.bytes (Text.utf8 value), rest) := by
    rw [Binary.readDatum, Binary.readPlain, Binary.writeText, readSized_writeBytes]
    rfl
  rw [Binary.readEntries, readText_writeText]
  simp only [hvalue]

/-- The two entries in front of the blocks are read as a map. -/
theorem read_entries (codec schema : String) (rest : List UInt8) :
    Binary.read (.map (.primitive .bytes none)) (Varint.writeInt 2 ++
        (Binary.writeText "avro.codec" ++ (Binary.writeText codec ++
          (Binary.writeText "avro.schema" ++ (Binary.writeText schema ++ ([0] ++ rest)))))) =
      .ok (.struct [(.text "avro.codec", .bytes (Text.utf8 codec)),
        (.text "avro.schema", .bytes (Text.utf8 schema))], rest) := by
  rw [Binary.read, Binary.readDatum]
  generalize hbytes : Varint.writeInt 2 ++ _ = bytes
  obtain ⟨fuel, hfuel⟩ : ∃ fuel, Binary.readDepth
      (Layout.declarations (.map (.primitive .bytes none))) bytes = fuel + 1 :=
    ⟨_, (Nat.succ_pred_eq_of_pos (Nat.mul_pos (Nat.succ_pos _) (Nat.succ_pos _))).symm⟩
  have h0 : Binary.readBlockCount ([0] ++ rest) = .ok (0, rest) :=
    Varint.writeInt_zero ▸ Binary.readBlockCount_writeInt 0 rest
  have hcount : Binary.readBlockCount bytes = .ok (2, _) :=
    hbytes ▸ Binary.readBlockCount_writeInt 2 _
  rw [hfuel, Binary.readMapBlocks, hcount]
  simp only [readEntry_text, Binary.readEntries]
  rw [Binary.readMapBlocks]
  simp only [h0]
  rfl

/-- The entries in front of the blocks. -/
def headerEntries (codec schema : String) : List (Key × Value) :=
  [(.text "avro.codec", .bytes (Text.utf8 codec)), (.text "avro.schema", .bytes (Text.utf8 schema))]

theorem headerOf?_entries (codec schema : String) (sync : List UInt8) {read : Json}
    (hread : Json.read .floating schema = .ok read) {layout : Layout}
    (hl : Layout.ofSchema read = .ok layout) :
    headerOf? (headerEntries codec schema) sync = some ⟨read, layout, codec, sync⟩ := by
  have htexts : textEntries? (headerEntries codec schema) =
      some [("avro.codec", codec), ("avro.schema", schema)] := by
    simp only [headerEntries, textEntries?, Text.ofUtf8?_utf8]
  have hschema : (lookup? "avro.schema" [("avro.codec", codec), ("avro.schema", schema)]).map
      (Json.read .floating) = some (.ok read) := by
    rw [lookup?, if_neg (by decide), lookup?, if_pos rfl, Option.map_some, hread]
  simp only [headerOf?, htexts, hschema, hl]
  rfl

/-- A header is read up to its end, if its entries are in order. -/
theorem readHeader?_entries (schema : Json) (codec : String) {sync : List UInt8}
    (hs : sync.length = 16) (rest : List UInt8) :
    readHeader? (header schema codec sync ++ rest) =
      (headerOf? (headerEntries codec (schema.text Json.Style.ascii)) sync).map (·, rest) := by
  have hbytes : header schema codec sync ++ rest = magic ++ (Varint.writeInt 2 ++
      (Binary.writeText "avro.codec" ++ (Binary.writeText codec ++
        (Binary.writeText "avro.schema" ++ (Binary.writeText (schema.text Json.Style.ascii) ++
          ([0] ++ (sync ++ rest))))))) := by
    simp only [header, List.append_assoc]
  have hmark := takeBytes_append magic (Varint.writeInt 2 ++
    (Binary.writeText "avro.codec" ++ (Binary.writeText codec ++
      (Binary.writeText "avro.schema" ++ (Binary.writeText (schema.text Json.Style.ascii) ++
        ([0] ++ (sync ++ rest)))))))
  have hentries := read_entries codec (schema.text Json.Style.ascii) (sync ++ rest)
  have hsync : Binary.takeBytes 16 (sync ++ rest) = .ok (sync, rest) := by
    rw [← hs]
    exact takeBytes_append sync rest
  rw [hbytes]
  cases hheader : headerOf? (headerEntries codec (schema.text Json.Style.ascii)) sync with
  | some found =>
    exact readHeader?_iff.mpr ⟨magic, _, _, _, sync, hmark, hentries, hsync, hheader⟩
  | none =>
    rw [Option.map_none, Option.eq_none_iff_forall_ne_some]
    rintro ⟨found, behind⟩ hfound
    obtain ⟨_, _, entries, _, _, hmark', hentries', hsync', hheader'⟩ :=
      (readHeader?_iff.mp hfound).parts
    cases hmark.symm.trans hmark'
    cases hentries.symm.trans hentries'
    cases hsync.symm.trans hsync'
    rw [headerEntries] at hheader
    cases hheader.symm.trans hheader'

/-- A header gives back the schema, the compression and the sync marker that went into it. -/
theorem readHeader?_header {schema : Json} (ht : schema.Tidy) {layout : Layout}
    (hl : Layout.ofSchema schema = .ok layout) (codec : String) {sync : List UInt8}
    (hs : sync.length = 16) (rest : List UInt8) :
    readHeader? (header schema codec sync ++ rest) = some (⟨schema, layout, codec, sync⟩, rest) := by
  rw [readHeader?_entries schema codec hs, headerOf?_entries codec _ sync (Json.read_text ht) hl]
  rfl

end header

/-! ## Blocks -/

theorem readBlock_block {sync : List UInt8} (hs : sync.length = 16) (count : Nat)
    (body rest : List UInt8) :
    readBlock sync (block sync count body ++ rest) = .ok (⟨count, body⟩, rest) := by
  have hsync : Binary.takeBytes 16 (sync ++ rest) = .ok (sync, rest) := by
    rw [← hs]
    exact takeBytes_append sync rest
  rw [block, List.append_assoc, List.append_assoc, readBlock, readInt_writeInt]
  simp only [readSized_writeBytes, hsync, if_true]
  rfl

theorem block_ne_nil (sync : List UInt8) (count : Nat) (body : List UInt8) :
    0 < (block sync count body).length := by
  have := Varint.length_writeInt_pos count
  rw [block, List.length_append, List.length_append]
  omega

end Container

/-! ## Results -/

/-- A sequence of results that are all documents, these ones. -/
def Delivers (feed : Feed DecodeResult) (values : List Value) : Prop :=
  ∃ results, feed = Feed.ofList results ∧ results.map (·.outcome) = values.map .ok

theorem delivers_empty : Delivers .empty [] := ⟨[], rfl, rfl⟩

theorem Delivers.cons {feed : Feed DecodeResult} {values : List Value} (h : Delivers feed values)
    (v : Value) (offset : Nat) : Delivers (feed.cons ⟨.ok v, offset⟩) (v :: values) := by
  obtain ⟨results, rfl, hr⟩ := h
  exact ⟨⟨.ok v, offset⟩ :: results, rfl, by rw [List.map_cons, List.map_cons, hr]⟩

theorem Delivers.append {first second : Feed DecodeResult} {values more : List Value}
    (h : Delivers first values) (h' : Delivers second more) :
    Delivers (first.append second) (values ++ more) := by
  obtain ⟨results, rfl, hr⟩ := h
  obtain ⟨results', rfl, hr'⟩ := h'
  refine ⟨results ++ results', ?_, by rw [List.map_append, List.map_append, hr, hr']⟩
  simp only [Feed.append, Feed.ofList, List.map_append]

namespace Decoder

open Container (block Pending fullBlocks)

/-- The documents of results that are all documents. -/
theorem documents_of_delivers (d : Decoder) {feed : Feed DecodeResult} {values : List Value}
    (h : Delivers feed values) : d.documents feed = Feed.ofList values := by
  obtain ⟨results, rfl, hr⟩ := h
  have hsteps : ∀ index, d.documentsFrom none index (results.map .item) = Feed.ofList values := by
    induction results generalizing values with
    | nil =>
      intro index
      cases values with
      | nil => rfl
      | cons v values => cases hr
    | cons result results ih =>
      intro index
      cases values with
      | nil => cases hr
      | cons v values =>
        rw [List.map_cons, List.map_cons, List.cons.injEq] at hr
        rw [List.map_cons, documentsFrom, hr.1]
        simp only [ih hr.2]
        rfl
  exact hsteps 0

section blocks

variable {r : Reconciler} {layout : Layout} {α : Type} {as : List α} {bytes : α → List UInt8}
  {stored view : α → Value}

/-- The records of a block deliver the documents that their data are reconciled to. -/
theorem recordsOf_delivers (hread : ∀ a ∈ as, Binary.Holds layout (bytes a) (stored a))
    (hvalue : ∀ a ∈ as, r.toValue (stored a) = .ok (view a)) (offset index : Nat) :
    ∃ feed, recordsOf r layout offset as.length index (as.flatMap bytes) = (feed, true) ∧
      Delivers feed (as.map view) := by
  induction as generalizing index with
  | nil => exact ⟨.empty, rfl, delivers_empty⟩
  | cons a as ih =>
    obtain ⟨feed, hfeed, hdelivers⟩ := ih (fun b hb => hread b (List.mem_cons_of_mem _ hb))
      (fun b hb => hvalue b (List.mem_cons_of_mem _ hb)) (index + 1)
    refine ⟨feed.cons ⟨.ok (view a), offset⟩, ?_, hdelivers.cons _ _⟩
    rw [List.length_cons, List.flatMap_cons, recordsOf, hread a List.mem_cons_self]
    simp only [reconcile, hvalue a List.mem_cons_self, hfeed]

variable {header : Container.Header} {total : Nat}

/-- A block delivers the documents of its records, and reading goes on behind it. -/
theorem blocksOf_block (hs : header.sync.length = 16) (hl : header.layout = layout)
    (hread : ∀ a ∈ as, Binary.Holds layout (bytes a) (stored a))
    (hvalue : ∀ a ∈ as, r.toValue (stored a) = .ok (view a)) {rest : List UInt8}
    {values : List Value} {fuel : Nat}
    (hf : (block header.sync as.length (as.flatMap bytes) ++ rest).length ≤ fuel)
    (hrest : ∀ fuel, rest.length ≤ fuel → Delivers (blocksOf r header total fuel rest) values) :
    Delivers (blocksOf r header total fuel
      (block header.sync as.length (as.flatMap bytes) ++ rest)) (as.map view ++ values) := by
  have hpos := Container.block_ne_nil header.sync as.length (as.flatMap bytes)
  rw [List.length_append] at hf
  obtain ⟨fuel, rfl⟩ : ∃ n, fuel = n + 1 := ⟨fuel - 1, by omega⟩
  subst hl
  obtain ⟨feed, hfeed, hdelivers⟩ := recordsOf_delivers hread hvalue
    (total - (block header.sync as.length (as.flatMap bytes) ++ rest).length) 0
  rw [blocksOf]
  · simp only [Container.readBlock_block hs, hfeed, if_true]
    exact hdelivers.append (hrest fuel (by omega))
  · intro h
    rw [List.append_eq_nil_iff] at h
    rw [h.1] at hpos
    exact absurd hpos (by decide)

/-- With one more record the waiting ones become a block, or wait on. -/
theorem fullBlocks_cons (interval : Int) (sync : List UInt8) (waiting : List α) (a : α) :
    fullBlocks interval sync ⟨waiting.length, waiting.flatMap bytes⟩ ((a :: as).map bytes) =
      if interval ≤ ((waiting ++ [a]).flatMap bytes).length then
        let more := fullBlocks interval sync {} (as.map bytes)
        (block sync (waiting ++ [a]).length ((waiting ++ [a]).flatMap bytes) ++ more.1, more.2)
      else
        fullBlocks interval sync ⟨(waiting ++ [a]).length, (waiting ++ [a]).flatMap bytes⟩
          (as.map bytes) := by
  have hbody : (waiting ++ [a]).flatMap bytes = waiting.flatMap bytes ++ bytes a := by
    rw [List.flatMap_append, List.flatMap_singleton]
  have hcount : (waiting ++ [a]).length = waiting.length + 1 := by
    rw [List.length_append, List.length_singleton]
  rw [hbody, hcount, List.map_cons, fullBlocks, Pending.add]
  by_cases h : interval ≤ (waiting.flatMap bytes ++ bytes a).length
  · simp only [h, if_true]
  · simp only [h, if_false, List.nil_append]

/-- The blocks of some records deliver the documents of all of them, wherever blocks were closed;
`waiting` are the records before them that are in no block yet. -/
theorem blocksOf_blocks (hs : header.sync.length = 16) (hl : header.layout = layout)
    {waiting : List α} (hread : ∀ a ∈ waiting ++ as, Binary.Holds layout (bytes a) (stored a))
    (hvalue : ∀ a ∈ waiting ++ as, r.toValue (stored a) = .ok (view a)) (interval : Int)
    {fuel : Nat} {out : List UInt8 × Pending}
    (hout : fullBlocks interval header.sync ⟨waiting.length, waiting.flatMap bytes⟩
      (as.map bytes) = out) (hf : (out.1 ++ out.2.flush header.sync).length ≤ fuel) :
    Delivers (blocksOf r header total fuel (out.1 ++ out.2.flush header.sync))
      ((waiting ++ as).map view) := by
  have hnone : ∀ fuel, Delivers (blocksOf r header total fuel []) [] := by
    intro fuel
    cases fuel <;> exact delivers_empty
  induction as generalizing waiting fuel out with
  | nil =>
    subst hout
    rw [List.append_nil] at hread hvalue ⊢
    rw [List.map_nil, fullBlocks, Pending.flush] at hf ⊢
    by_cases hw : waiting = []
    · subst hw
      exact hnone fuel
    · have hcount : waiting.length ≠ 0 := fun h => hw (List.length_eq_zero_iff.mp h)
      simp only [hcount, if_false, List.nil_append] at hf ⊢
      rw [← List.append_nil (block _ _ _)] at hf ⊢
      rw [← List.append_nil (waiting.map view)]
      exact blocksOf_block hs hl hread hvalue hf fun fuel _ => hnone fuel
  | cons a as ih =>
    have hsplit : waiting ++ a :: as = (waiting ++ [a]) ++ as := by
      rw [List.append_assoc, List.singleton_append]
    rw [hsplit] at hread hvalue ⊢
    rw [fullBlocks_cons] at hout
    split at hout
    · subst hout
      rw [List.append_assoc] at hf ⊢
      rw [List.map_append]
      have hhere : ∀ b ∈ waiting ++ [a], b ∈ waiting ++ [a] ++ as :=
        fun b hb => List.mem_append_left _ hb
      have hthere : ∀ b ∈ ([] : List α) ++ as, b ∈ waiting ++ [a] ++ as :=
        fun b hb => List.mem_append_right _ hb
      refine blocksOf_block hs hl (fun b hb => hread b (hhere b hb))
        (fun b hb => hvalue b (hhere b hb)) hf fun fuel hfuel => ?_
      exact ih (fun b hb => hread b (hthere b hb)) (fun b hb => hvalue b (hthere b hb)) rfl hfuel
    · exact ih hread hvalue hout hf

theorem blocksOf_records (hs : header.sync.length = 16) (hl : header.layout = layout)
    (hread : ∀ a ∈ as, Binary.Holds layout (bytes a) (stored a))
    (hvalue : ∀ a ∈ as, r.toValue (stored a) = .ok (view a)) (interval : Int) :
    let out := fullBlocks interval header.sync {} (as.map bytes)
    Delivers (blocksOf r header total (out.1 ++ out.2.flush header.sync).length
      (out.1 ++ out.2.flush header.sync)) (as.map view) :=
  blocksOf_blocks hs hl (show ∀ a ∈ ([] : List α) ++ as, _ from hread) hvalue interval rfl
    (Nat.le_refl _)

end blocks

/-- Behind a header that the reader accepts come the results of the blocks. -/
theorem results_header (d : Decoder) {schema : Json} (ht : schema.Tidy) {layout : Layout}
    (hl : Layout.ofSchema schema = .ok layout) {codec : String}
    (hc : Container.codecs.contains codec = true) {sync : List UInt8} (hs : sync.length = 16)
    (hcheck : d.checkHeader ⟨schema, layout, codec, sync⟩ = .ok ()) (rest : List UInt8) :
    d.results true (Container.header schema codec sync ++ rest) =
      blocksOf (d.reconcilerFor ⟨schema, layout, codec, sync⟩) ⟨schema, layout, codec, sync⟩
        (Container.header schema codec sync ++ rest).length rest.length rest := by
  rw [results, Container.readHeader?_header ht hl codec hs]
  simp only [hcheck, hc, Bool.not_true, Bool.false_eq_true, if_false]

end Decoder
end AvroDocument
