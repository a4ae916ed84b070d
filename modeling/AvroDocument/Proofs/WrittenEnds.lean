import AvroDocument.Proofs.Shapes
import AvroDocument.Proofs.Stability

/-!
# AvroDocument.Proofs.WrittenEnds

What was written is read to its end.

* `Binary.Spans`: bytes that a reader takes to their end, if it takes anything.
* `Binary.spans_plain`, `Binary.spans_datum`: what is written for a datum of a primitive type, and of
  any layout.
* `Binary.read_written`: what is read for it does not depend on what stands behind.
* `Binary.readRecord_parts`: the fields of a record are read each from its own bytes.
-/

namespace AvroDocument
namespace Binary

/-- A reader that takes anything off the front of some bytes takes all of these, and no more. -/
def Spans {α : Type} (read : Reader α) (body : List UInt8) : Prop :=
  ∀ rest a behind, read (body ++ rest) = .ok (a, behind) → behind = rest

section combinators

variable {α β : Type} {body more : List UInt8}

theorem Spans.andThen {first : Reader α} {next : α → Reader β} (h : Spans first body)
    (hnext : ∀ a, Spans (next a) more) : Spans (andThen first next) (body ++ more) := by
  intro rest b behind hread
  rw [List.append_assoc] at hread
  obtain ⟨a, middle, hfirst, hread⟩ := andThen_ok.mp hread
  rw [h _ _ _ hfirst] at hread
  exact hnext a _ _ _ hread

/-- Behind what is known to be read, one reader goes on. -/
theorem spans_behind {first : Reader α} {next : α → Reader β} {a : α}
    (h : ∀ rest, first (body ++ rest) = .ok (a, rest)) (hnext : Spans (next a) more) :
    Spans (andThen first next) (body ++ more) := by
  intro rest b behind hread
  rw [List.append_assoc] at hread
  obtain ⟨a', middle, hfirst, hread⟩ := andThen_ok.mp hread
  rw [h] at hfirst
  cases hfirst
  exact hnext _ _ _ hread

theorem spans_accept (a? : Option α) : Spans (accept a?) [] :=
  fun _ _ _ hread => (accept_ok hread).2

theorem spans_given {a? : Option α} {next : α → Reader β} (h : ∀ a ∈ a?, Spans (next a) body) :
    Spans (andThen (accept a?) next) body := by
  intro rest b behind hread
  obtain ⟨a, middle, ha, hread⟩ := andThen_ok.mp hread
  obtain ⟨hgiven, rfl⟩ := accept_ok ha
  exact h a hgiven _ _ _ hread

theorem Spans.map {read : Reader α} (h : Spans read body) (f : α → β) :
    Spans (fun bytes => (read bytes).map fun (a, rest) => (f a, rest)) body := by
  rw [map_eq_andThen, ← List.append_nil body]
  exact h.andThen fun _ => spans_accept _

end combinators

/-! ## Primitive and fixed data -/

theorem spans_takeBytes {count : Nat} {body : List UInt8} (h : body.length = count) :
    Spans (takeBytes count) body := by
  intro rest a behind hread
  rw [← h, takeBytes_append] at hread
  cases hread
  rfl

/-- What is written as an integer is a whole number. -/
theorem writePlain_integer {type : Primitive} (htype : type = .int ∨ type = .long) {plain : Value}
    {bytes : List UInt8} (h : writePlain type plain = .ok bytes) :
    ∃ n, bytes = Varint.writeInt n := by
  obtain rfl | rfl := htype
  all_goals
    unfold writePlain at h
    simp only at h
    split at h
    · cases h
    split at h
    · exact ⟨_, (Except.ok.inj h).symm⟩
    · cases h

theorem spans_plain {type : Primitive} {plain : Value} {bytes : List UInt8}
    (h : writePlain type plain = .ok bytes) : Spans (readPlain type) bytes := by
  have hinteger (htype : type = .int ∨ type = .long) : Spans (readPlain type) bytes := by
    obtain ⟨n, rfl⟩ := writePlain_integer htype h
    intro rest a behind hread
    obtain rfl | rfl := htype <;>
    · unfold readPlain at hread
      simp only [readInt_writeInt] at hread
      cases hread
      rfl
  cases type with
  | null | boolean =>
    intro rest a behind hread
    cases h
    cases hread
    rfl
  | int => exact hinteger (.inl rfl)
  | long => exact hinteger (.inr rfl)
  | float | double =>
    rw [writePlain] at h
    obtain ⟨x, -, rfl⟩ := map_eq_ok h
    intro rest a behind hread
    rw [readPlain, takeBytes_littleEndian] at hread
    cases hread
    rfl
  | bytes =>
    cases plain with
    | bytes bs | byteArray bs =>
      cases h
      intro rest a behind hread
      rw [readPlain, readSized_writeBytes] at hread
      cases hread
      rfl
    | _ => cases h
  | string =>
    cases plain with
    | text s =>
      cases h
      intro rest a behind hread
      rw [readPlain, readText_writeText] at hread
      cases hread
      rfl
    | _ => cases h

/-- Fixed data take the bytes that their type has. -/
theorem length_fixedBytes {size : Option Nat} {decimal : Option DecimalType} {datum : Value}
    {bytes : List UInt8} (h : fixedBytes size decimal datum = .ok bytes) :
    size = some bytes.length := by
  cases size with
  | none => cases h
  | some size =>
    have hexactly {bs : List UInt8}
        (h : (if bs.length = size then .ok bs else .error .rejected : Except WriteFault _) =
          .ok bytes) : some size = some bytes.length := by
      split at h
      · cases h
        exact congrArg some ‹_ = size›.symm
      · cases h
    unfold fixedBytes at h
    simp only at h
    split at h
    · split at h
      · cases h
      split at h
      · cases h
      · cases h
        rw [Word.length_signedBytes]
    · exact hexactly h
    · exact hexactly h
    · cases h

/-! ## Data of any layout -/

/-- Blocks are read up to the empty one. -/
theorem spans_writeBlock {β : Type} {done : Reader β} {inside : Nat → Reader β} {count : Nat}
    {body : List UInt8} (hdone : Spans done [])
    (hinside : count ≠ 0 → Spans (inside count) (body ++ [0])) :
    Spans (andThen readBlockCount fun n => if n = 0 then done else inside n)
      (writeBlock count body) := by
  rw [writeBlock]
  split
  · have hempty (rest : List UInt8) : readBlockCount ([0] ++ rest) = .ok (0, rest) :=
      Varint.writeInt_zero ▸ readBlockCount_writeInt 0 rest
    exact spans_behind hempty (if_pos rfl ▸ hdone)
  · rename_i hsome
    rw [List.append_assoc]
    refine spans_behind (readBlockCount_writeInt count) ?_
    rw [if_neg hsome]
    exact hinside hsome

section datum

variable {types : Declarations} {items : Layout} {count : Nat} {body : List UInt8}

theorem spans_blocks (h : ∀ fuel, Spans (readItems types fuel items count) body) (fuel : Nat)
    (taken : List Value) : Spans (readBlocks types fuel items taken) (writeBlock count body) := by
  have hend (fuel : Nat) (taken : List Value) : Spans (readBlocks types fuel items taken) [0] := by
    show Spans _ (writeBlock 0 [])
    rw [readBlocks_eq]
    exact spans_writeBlock (spans_accept _) fun h => absurd rfl h
  rw [readBlocks_eq]
  refine spans_writeBlock (spans_accept _) fun _ => ?_
  cases fuel with
  | zero => exact fun _ _ _ hread => nomatch hread
  | succ fuel => exact (h fuel).andThen fun _ => hend fuel _

theorem spans_mapBlocks
    (h : ∀ fuel taken, Spans (readEntries types fuel items count taken) body) (fuel : Nat)
    (taken : List (Key × Value)) :
    Spans (readMapBlocks types fuel items taken) (writeBlock count body) := by
  have hend (fuel : Nat) (taken : List (Key × Value)) :
      Spans (readMapBlocks types fuel items taken) [0] := by
    show Spans _ (writeBlock 0 [])
    rw [readMapBlocks_eq]
    exact spans_writeBlock (spans_accept _) fun h => absurd rfl h
  rw [readMapBlocks_eq]
  refine spans_writeBlock (spans_accept _) fun _ => ?_
  cases fuel with
  | zero => exact fun _ _ _ hread => nomatch hread
  | succ fuel => exact (h fuel taken).andThen fun _ => hend fuel _

mutual

/-- What is written for a datum is read to its end, with whatever fuel. -/
theorem spans_datum {fuel : Nat} (layout : Layout) {datum : Value} {bytes : List UInt8}
    (h : writeDatum types fuel layout datum = .ok bytes) (fuel' : Nat) :
    Spans (readDatum types fuel' layout) bytes := by
  cases layout with
  | primitive type meaning =>
    rw [writeDatum] at h
    split at h
    · cases h
    rw [readDatum_primitive, ← List.append_nil bytes]
    exact (spans_plain h).andThen fun _ => spans_accept _
  | array items =>
    rw [writeDatum] at h
    split at h
    swap
    · cases h
    rename_i vs _
    obtain ⟨body, hbody, rfl⟩ := map_eq_ok h
    intro rest v behind hread
    rw [readDatum] at hread
    exact ((spans_blocks (spans_items items hbody) fuel' []).map Value.list) _ _ _ hread
  | map values =>
    rw [writeDatum.eq_def] at h
    simp only at h
    split at h
    swap
    · cases h
    rename_i entries
    obtain ⟨body, hbody, rfl⟩ := map_eq_ok h
    intro rest v behind hread
    rw [readDatum] at hread
    exact ((spans_mapBlocks (spans_entries values hbody) fuel' []).map Value.struct) _ _ _ hread
  | union members =>
    rw [writeDatum] at h
    split at h
    · cases h
    · cases h
    rename_i i _
    obtain ⟨body, hbody, rfl⟩ := map_eq_ok h
    rw [readDatum_union]
    refine spans_behind (readInt_writeInt i) (spans_given fun j hj => ?_)
    obtain rfl : j = i := by
      rw [place?, if_pos (Int.natCast_nonneg i)] at hj
      split at hj
      · simpa using hj.symm
      · cases hj
    exact spans_member members _ hbody fuel'
  | enum name symbols =>
    rw [writeDatum.eq_def] at h
    simp only at h
    split at h
    swap
    · cases h
    split at h
    swap
    · cases h
    cases h
    rw [readDatum_enum, ← List.append_nil (Varint.writeInt _)]
    exact spans_behind (readInt_writeInt _) (spans_accept _)
  | fixed name size decimal =>
    rw [writeDatum] at h
    obtain rfl := length_fixedBytes h
    rw [readDatum_fixed, ← List.append_nil bytes]
    exact (spans_takeBytes (by rw [List.append_nil])).andThen fun _ => spans_accept _
  | record name fields =>
    intro rest v behind hread
    rw [readDatum] at hread
    refine Spans.map (f := Value.struct) ?_ _ _ _ hread
    cases fields with
    | nil =>
      rw [writeDatum] at h
      cases h
      rw [readFields_nil]
      exact spans_accept _
    | cons field fields =>
      rw [writeDatum.eq_def] at h
      simp only at h
      split at h
      · exact spans_fields (field :: fields) h fuel' []
      · cases h
  | reference name =>
    cases fuel' with
    | zero =>
      intro rest v behind hread
      rw [readDatum_outOfFuel] at hread
      cases hread
    | succ fuel' =>
      rw [writeDatum.eq_def] at h
      simp only at h
      split at h
      swap
      · cases h
      rename_i fuel layout hlookup
      rw [readDatum_reference]
      refine spans_given fun layout' hlayout => ?_
      obtain rfl := Option.some.inj (hlookup.symm.trans hlayout)
      exact spans_datum layout h fuel'
termination_by (fuel, sizeOf layout, 0)

theorem spans_items {fuel : Nat} (items : Layout) {vs : List Value} {bytes : List UInt8}
    (h : writeItems types fuel items vs = .ok bytes) (fuel' : Nat) :
    Spans (readItems types fuel' items vs.length) bytes := by
  cases vs with
  | nil =>
    rw [writeItems] at h
    cases h
    rw [List.length_nil, readItems_zero]
    exact spans_accept _
  | cons v vs =>
    rw [writeItems] at h
    split at h
    · cases h
    rename_i first hfirst
    obtain ⟨body, hbody, rfl⟩ := map_eq_ok h
    rw [List.length_cons, readItems_succ]
    exact (spans_datum items hfirst fuel').andThen fun w =>
      (spans_items items hbody fuel').map (w :: ·)
termination_by (fuel, sizeOf items, vs.length + 1)

theorem spans_entries {fuel : Nat} (values : Layout) {entries : List (Key × Value)}
    {bytes : List UInt8} (h : writeEntries types fuel values entries = .ok bytes) (fuel' : Nat)
    (taken : List (Key × Value)) :
    Spans (readEntries types fuel' values entries.length taken) bytes := by
  match entries with
  | [] =>
    rw [writeEntries] at h
    cases h
    rw [List.length_nil, readEntries_zero]
    exact spans_accept _
  | (key, v) :: entries =>
    cases key with
    | text key =>
      rw [writeEntries] at h
      split at h
      · cases h
      rename_i first hfirst
      obtain ⟨body, hbody, rfl⟩ := map_eq_ok h
      rw [List.length_cons, readEntries_succ, List.append_assoc]
      exact spans_behind (readText_writeText key) ((spans_datum values hfirst fuel').andThen
        fun w => spans_entries values hbody fuel' (Value.setEntry key w taken))
    | _ =>
      rw [writeEntries.eq_def] at h
      cases h
termination_by (fuel, sizeOf values, entries.length + 1)

theorem spans_member {fuel : Nat} (members : List Layout) (index : Nat) {datum : Value}
    {bytes : List UInt8} (h : writeMember types fuel members index datum = .ok bytes)
    (fuel' : Nat) : Spans (readMember types fuel' members index) bytes := by
  cases members with
  | nil =>
    rw [writeMember] at h
    cases h
  | cons member members =>
    intro rest v behind hread
    cases index with
    | zero =>
      rw [writeMember] at h
      rw [readMember] at hread
      exact spans_datum member h fuel' _ _ _ hread
    | succ i =>
      rw [writeMember] at h
      rw [readMember] at hread
      exact spans_member members i h fuel' _ _ _ hread
termination_by (fuel, sizeOf members, 0)

theorem spans_fields {fuel : Nat} (fields : List (String × Option Json × Layout))
    {entries : List (Key × Value)} {bytes : List UInt8}
    (h : writeFields types fuel fields entries = .ok bytes) (fuel' : Nat)
    (taken : List (Key × Value)) : Spans (readFields types fuel' fields taken) bytes := by
  match fields with
  | [] =>
    rw [writeFields] at h
    cases h
    rw [readFields_nil]
    exact spans_accept _
  | (name, default, layout) :: fields =>
    rw [writeFields] at h
    split at h
    · cases h
    rename_i first hfirst
    obtain ⟨body, hbody, rfl⟩ := map_eq_ok h
    rw [readFields_cons]
    exact (spans_datum layout hfirst fuel').andThen fun v =>
      spans_fields fields hbody fuel' (Value.setEntry name v taken)
termination_by (fuel, sizeOf fields, 0)

end

end datum

/-- What is read for a datum that was written is read again with more fuel, and whatever stands
behind it. -/
theorem read_written {types : Declarations} {fuel fuel' : Nat} {layout : Layout} {datum v : Value}
    {bytes rest behind : List UInt8} (h : writeDatum types fuel layout datum = .ok bytes)
    (hread : readDatum types fuel' layout (bytes ++ rest) = .ok (v, behind)) :
    behind = rest ∧ ∀ more, fuel' ≤ more → ∀ rest,
      readDatum types more layout (bytes ++ rest) = .ok (v, rest) := by
  obtain rfl := spans_datum layout h fuel' _ _ _ hread
  refine ⟨rfl, fun more hmore rest => ?_⟩
  obtain ⟨body, hbody, hagain⟩ := carries_datum hmore layout _ _ _ hread
  rw [List.append_cancel_right hbody]
  exact hagain rest

/-- What is stored for a datum is what is read where it was written. -/
theorem Stable.eq_read {types : Declarations} {fuel fuel' : Nat} {layout : Layout}
    {datum stored v : Value} {bytes rest behind : List UInt8}
    (h : Stable types layout datum stored)
    (hwrite : writeDatum types fuel layout datum = .ok bytes)
    (hread : readDatum types fuel' layout (bytes ++ rest) = .ok (v, behind)) : v = stored := by
  obtain ⟨least, hleast⟩ := h.read fuel bytes hwrite
  have hagain := (read_written hwrite hread).2 (max fuel' least) (Nat.le_max_left _ _) []
  rw [hleast _ (Nat.le_max_right _ _)] at hagain
  cases hagain
  rfl

/-- Fields that were written one behind the other are read each from its own bytes. -/
theorem readFields_parts {types : Declarations} {fuel : Nat}
    {fields : List (String × Option Json × Layout)}
    {part : String × Option Json × Layout → List UInt8} (hnames : (fields.map (·.1)).Nodup)
    (hspans : ∀ f ∈ fields, Spans (readDatum types fuel f.2.2) (part f))
    {taken : List (Key × Value)} (htaken : ∀ f ∈ fields, Key.text f.1 ∉ taken.map (·.1))
    {rest behind : List UInt8} {entries : List (Key × Value)}
    (hread : readFields types fuel fields taken (fields.flatMap part ++ rest) =
      .ok (entries, behind)) :
    ∃ datum : String × Option Json × Layout → Value,
      entries = taken ++ (fields.map fun f => (Key.text f.1, datum f)) ∧
        ∀ f ∈ fields, ∃ rest, readDatum types fuel f.2.2 (part f ++ rest) = .ok (datum f, rest) := by
  induction fields generalizing taken with
  | nil =>
    rw [readFields_nil] at hread
    cases hread
    exact ⟨fun _ => .null, (List.append_nil _).symm, List.forall_mem_nil _⟩
  | cons f fields ih =>
    obtain ⟨name, default, layout⟩ := f
    rw [List.flatMap_cons, List.append_assoc, readFields_cons, andThen_ok] at hread
    obtain ⟨v, middle, hfirst, hread⟩ := hread
    obtain rfl := hspans _ List.mem_cons_self _ _ _ hfirst
    rw [Value.setEntry_new (htaken _ List.mem_cons_self)] at hread
    have hothers := ih (List.nodup_cons.mp hnames).2
      (fun g hg => hspans g (List.mem_cons_of_mem _ hg)) (fresh_behind v hnames htaken) hread
    exact entries_behind (P := fun f v => ∃ rest,
      readDatum types fuel f.2.2 (part f ++ rest) = .ok (v, rest)) hnames ⟨_, hfirst⟩ hothers

/-- A record that was written is read as a record, each of whose fields is read from what was written
for it. -/
theorem readRecord_parts {types : Declarations} {fuel fuel' : Nat} {name : String}
    {fields : List (String × Option Json × Layout)} (hnames : (fields.map (·.1)).Nodup)
    {datum v : Value} {bytes rest behind : List UInt8}
    (hwrite : writeDatum types fuel (.record name fields) datum = .ok bytes)
    (hread : readDatum types fuel' (.record name fields) (bytes ++ rest) = .ok (v, behind)) :
    ∃ stored : String × Option Json × Layout → Value,
      v = .struct (fields.map fun f => (Key.text f.1, stored f)) ∧
        ∀ f ∈ fields, ∃ es part rest, datum = .struct es ∧
          writeDatum types fuel f.2.2 (fieldValue es f.1 f.2.1) = .ok part ∧
          readDatum types fuel' f.2.2 (part ++ rest) = .ok (stored f, rest) := by
  rw [readDatum] at hread
  obtain ⟨entries, rest', hfields, hv⟩ := map_ok hread
  cases hv
  cases fields with
  | nil =>
    rw [readFields_nil] at hfields
    cases hfields
    exact ⟨fun _ => .null, rfl, List.forall_mem_nil _⟩
  | cons field fields =>
    rw [writeDatum.eq_def] at hwrite
    simp only at hwrite
    split at hwrite
    swap
    · cases hwrite
    rename_i es
    rw [writeFields_joined] at hwrite
    obtain ⟨part, rfl, hpart⟩ := joined_ok hwrite
    obtain ⟨stored, hentries, hall⟩ := readFields_parts hnames
      (fun f hf => spans_datum f.2.2 (hpart f hf) fuel') (fun _ _ => List.not_mem_nil) hfields
    refine ⟨stored, congrArg Value.struct hentries, fun f hf => ?_⟩
    obtain ⟨rest, hfield⟩ := hall f hf
    exact ⟨es, part f, rest, rfl, hpart f hf, hfield⟩

end Binary
end AvroDocument
