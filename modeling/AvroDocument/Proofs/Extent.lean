import AvroDocument.Binary.Container

/-!
# AvroDocument.Proofs.Extent

A reader looks at nothing behind what it takes.

* `Binary.Carries`: what one reader takes from the front of some bytes, another takes as well,
  whatever stands behind.
* `Binary.carries_datum`: data of any layout, with as much fuel or more.
* `Binary.read_extent`, `Container.readBlock_extent`, `Container.readHeader?_extent`: data, blocks and
  headers.
-/

namespace AvroDocument
namespace Binary

/-- A reader of something at the front of some bytes. -/
abbrev Reader (α : Type) := List UInt8 → ReadResult α

/-- What `first` takes from the front of some bytes, `later` takes as well, whatever stands
behind. -/
def Carries {α : Type} (first later : Reader α) : Prop :=
  ∀ bytes a rest, first bytes = .ok (a, rest) →
    ∃ body, bytes = body ++ rest ∧ ∀ more, later (body ++ more) = .ok (a, more)

/-! ## Readers one behind the other -/

/-- Reads with one reader and then with another that depends on what came out. -/
def andThen {α β : Type} (first : Reader α) (next : α → Reader β) : Reader β := fun bytes =>
  match first bytes with
  | .error e => .error e
  | .ok (a, rest) => next a rest

/-- Takes nothing; fails when there is nothing to give. -/
def accept {α : Type} (a? : Option α) : Reader α := fun bytes =>
  match a? with
  | some a => .ok (a, bytes)
  | none => .error bytes

section combinators

variable {α β : Type}

theorem Carries.andThen {first later : Reader α} {next next' : α → Reader β}
    (h : Carries first later) (hn : ∀ a, Carries (next a) (next' a)) :
    Carries (andThen first next) (andThen later next') := by
  intro bytes b rest hread
  rw [Binary.andThen] at hread
  cases hfirst : first bytes with
  | error e =>
    rw [hfirst] at hread
    cases hread
  | ok result =>
    obtain ⟨a, middle⟩ := result
    rw [hfirst] at hread
    obtain ⟨head, rfl, hhead⟩ := h _ _ _ hfirst
    obtain ⟨tail, rfl, htail⟩ := hn a _ _ _ hread
    refine ⟨head ++ tail, (List.append_assoc _ _ _).symm, fun more => ?_⟩
    rw [List.append_assoc, Binary.andThen, hhead]
    exact htail more

theorem carries_accept (a? : Option α) : Carries (accept a?) (accept a?) := by
  intro bytes a rest hread
  cases a? with
  | none => cases hread
  | some a =>
    cases hread
    exact ⟨[], rfl, fun _ => rfl⟩

theorem carries_none (later : Reader α) : Carries (accept none) later := by
  intro bytes a rest hread
  cases hread

theorem map_eq_andThen {read : Reader α} {f : α → β} :
    (fun bytes => (read bytes).map fun (a, rest) => (f a, rest)) =
      andThen read fun a => accept (some (f a)) := by
  funext bytes
  rw [andThen]
  rcases read bytes with e | ⟨a, rest⟩ <;> rfl

theorem Carries.map {first later : Reader α} (h : Carries first later) (f : α → β) :
    Carries (fun bytes => (first bytes).map fun (a, rest) => (f a, rest))
      (fun bytes => (later bytes).map fun (a, rest) => (f a, rest)) := by
  rw [map_eq_andThen, map_eq_andThen]
  exact h.andThen fun _ => carries_accept _

end combinators

/-! ## Plain data -/

theorem carries_takeBytes (count : Nat) : Carries (takeBytes count) (takeBytes count) := by
  induction count with
  | zero => exact carries_accept (some [])
  | succ count ih =>
    intro bytes a rest hread
    cases bytes with
    | nil => cases hread
    | cons b bytes =>
      rw [takeBytes] at hread
      obtain ⟨body, hbody, hmore⟩ := ih.map (b :: ·) _ _ _ hread
      refine ⟨b :: body, by rw [hbody]; rfl, fun more => ?_⟩
      rw [List.cons_append, takeBytes]
      exact hmore more

theorem carries_readNat? {bytes rest : List UInt8} {n : Nat}
    (h : Varint.readNat? bytes = some (n, rest)) :
    ∃ body, bytes = body ++ rest ∧ ∀ more, Varint.readNat? (body ++ more) = some (n, more) := by
  induction bytes generalizing n rest with
  | nil => cases h
  | cons b bytes ih =>
    rw [Varint.readNat?] at h
    by_cases hb : b < 128
    · rw [if_pos hb] at h
      cases h
      refine ⟨[b], rfl, fun more => ?_⟩
      rw [List.singleton_append, Varint.readNat?, if_pos hb]
    · rw [if_neg hb] at h
      cases hrest : Varint.readNat? bytes with
      | none =>
        rw [hrest] at h
        cases h
      | some result =>
        obtain ⟨m, behind⟩ := result
        rw [hrest] at h
        cases h
        obtain ⟨body, rfl, hmore⟩ := ih hrest
        refine ⟨b :: body, rfl, fun more => ?_⟩
        rw [List.cons_append, Varint.readNat?, if_neg hb, hmore]

theorem carries_readInt : Carries readInt readInt := by
  intro bytes n rest hread
  rw [readInt, Varint.readInt?] at hread
  cases hnat : Varint.readNat? bytes with
  | none =>
    rw [hnat] at hread
    cases hread
  | some result =>
    obtain ⟨m, behind⟩ := result
    rw [hnat] at hread
    cases hread
    obtain ⟨body, rfl, hmore⟩ := carries_readNat? hnat
    refine ⟨body, rfl, fun more => ?_⟩
    rw [readInt, Varint.readInt?, hmore]

theorem carries_readSized : Carries readSized readSized := by
  have heq : readSized = andThen readInt fun n => takeBytes n.toNat := by
    funext bytes
    rw [readSized, andThen]
    rcases readInt bytes with e | ⟨n, rest⟩ <;> rfl
  rw [heq]
  exact carries_readInt.andThen fun n => carries_takeBytes _

theorem carries_readText : Carries readText readText := by
  have heq : readText = andThen readSized fun body => accept (Text.ofUtf8? body) := by
    funext bytes
    rw [readText, andThen]
    rcases readSized bytes with e | ⟨body, rest⟩
    · rfl
    · simp only [accept]
      cases Text.ofUtf8? body <;> rfl
  rw [heq]
  exact carries_readSized.andThen fun body => carries_accept _

theorem carries_readBlockCount : Carries readBlockCount readBlockCount := by
  have heq : readBlockCount = andThen readInt fun n =>
      if 0 ≤ n then accept (some n.toNat) else andThen readInt fun _ => accept (some n.natAbs) := by
    funext bytes
    rw [readBlockCount, andThen]
    cases readInt bytes with
    | error e => rfl
    | ok result =>
      obtain ⟨n, rest⟩ := result
      by_cases hn : 0 ≤ n
      · simp only [hn, if_true, accept]
      · simp only [hn, if_false, ← map_eq_andThen]
  rw [heq]
  refine carries_readInt.andThen fun n => ?_
  split
  · exact carries_accept _
  · exact carries_readInt.andThen fun _ => carries_accept _

theorem carries_readPlain (type : Primitive) : Carries (readPlain type) (readPlain type) := by
  cases type with
  | null => exact carries_accept (some Value.null)
  | boolean =>
    intro bytes v rest hread
    cases bytes with
    | nil => cases hread
    | cons b bytes =>
      cases hread
      exact ⟨[b], rfl, fun _ => rfl⟩
  | float => exact (carries_takeBytes 4).map fun body =>
      Value.float (Binary64.ofBinary32 (UInt32.ofNat (Word.ofLittleEndian body)))
  | double => exact (carries_takeBytes 8).map fun body =>
      Value.float ⟨UInt64.ofNat (Word.ofLittleEndian body)⟩
  | bytes => exact carries_readSized.map _
  | string => exact carries_readText.map _
  | int | long => exact carries_readInt.map _

/-! ## Data of any layout -/

section datum

variable {types : Declarations}

theorem readDatum_primitive (fuel : Nat) (type : Primitive) (meaning : Option Meaning) :
    readDatum types fuel (.primitive type meaning) =
      andThen (readPlain type) fun plain => accept (wrap meaning plain) := by
  funext bytes
  rw [readDatum, andThen]
  rcases readPlain type bytes with e | ⟨plain, rest⟩
  · rfl
  · simp only [accept]
    cases wrap meaning plain <;> rfl

theorem readDatum_union (fuel : Nat) (members : List Layout) :
    readDatum types fuel (.union members) = andThen readInt fun n =>
      andThen (accept (place? n members.length)) (readMember types fuel members) := by
  funext bytes
  rw [readDatum, andThen]
  cases readInt bytes with
  | error e => rfl
  | ok result =>
    obtain ⟨n, rest⟩ := result
    simp only [andThen, accept]
    cases place? n members.length <;> rfl

theorem readDatum_enum (fuel : Nat) (name : String) (symbols : List String) :
    readDatum types fuel (.enum name symbols) = andThen readInt fun n =>
      accept (((place? n symbols.length).bind (symbols[·]?)).map .text) := by
  funext bytes
  rw [readDatum, andThen]
  cases readInt bytes with
  | error e => rfl
  | ok result =>
    obtain ⟨n, rest⟩ := result
    simp only [accept]
    cases (place? n symbols.length).bind (symbols[·]?) <;> rfl

theorem readDatum_fixed (fuel : Nat) (name : String) (size : Nat) (decimal : Option DecimalType) :
    readDatum types fuel (.fixed name (some size) decimal) =
      andThen (takeBytes size) fun body => accept (fixedValue? decimal body) := by
  funext bytes
  rw [readDatum, andThen]
  rcases takeBytes size bytes with e | ⟨body, rest⟩
  · rfl
  · simp only [accept]
    cases fixedValue? decimal body <;> rfl

theorem readDatum_reference (fuel : Nat) (name : String) :
    readDatum types (fuel + 1) (.reference name) =
      andThen (accept (lookup? name types)) (readDatum types fuel) := by
  funext bytes
  rw [readDatum.eq_def, andThen]
  simp only
  cases lookup? name types <;> rfl

theorem readDatum_outOfFuel (name : String) (bytes : List UInt8) :
    readDatum types 0 (.reference name) bytes = .error bytes := by
  rw [readDatum.eq_def]

theorem readBlocks_eq (fuel : Nat) (items : Layout) (taken : List Value) :
    readBlocks types fuel items taken = andThen readBlockCount fun count =>
      if count = 0 then accept (some taken)
      else
        match fuel with
        | 0 => accept none
        | fuel + 1 => andThen (readItems types fuel items count) fun vs =>
          readBlocks types fuel items (taken ++ vs) := by
  funext bytes
  rw [readBlocks.eq_def, andThen]
  rcases readBlockCount bytes with e | ⟨count, rest⟩
  · rfl
  · rcases count with _ | count
    · rfl
    · simp only [Nat.succ_ne_zero, if_false]
      cases fuel with
      | zero => rfl
      | succ fuel =>
        simp only [andThen]
        rcases readItems types fuel items (count + 1) rest with e | ⟨vs, rest⟩ <;> rfl

theorem readItems_zero (fuel : Nat) (items : Layout) :
    readItems types fuel items 0 = accept (some []) := by
  funext bytes
  rw [readItems, accept]

theorem readItems_succ (fuel : Nat) (items : Layout) (count : Nat) :
    readItems types fuel items (count + 1) = andThen (readDatum types fuel items) fun v bytes =>
      (readItems types fuel items count bytes).map fun (vs, rest) => (v :: vs, rest) := by
  funext bytes
  rw [readItems, andThen]
  rcases readDatum types fuel items bytes with e | ⟨v, rest⟩ <;> rfl

theorem readMapBlocks_eq (fuel : Nat) (values : Layout) (taken : List (Key × Value)) :
    readMapBlocks types fuel values taken = andThen readBlockCount fun count =>
      if count = 0 then accept (some taken)
      else
        match fuel with
        | 0 => accept none
        | fuel + 1 => andThen (readEntries types fuel values count taken) fun taken =>
          readMapBlocks types fuel values taken := by
  funext bytes
  rw [readMapBlocks.eq_def, andThen]
  rcases readBlockCount bytes with e | ⟨count, rest⟩
  · rfl
  · rcases count with _ | count
    · rfl
    · simp only [Nat.succ_ne_zero, if_false]
      cases fuel with
      | zero => rfl
      | succ fuel =>
        simp only [andThen]
        rcases readEntries types fuel values (count + 1) taken rest with e | ⟨vs, rest⟩ <;> rfl

theorem readEntries_zero (fuel : Nat) (values : Layout) (taken : List (Key × Value)) :
    readEntries types fuel values 0 taken = accept (some taken) := by
  funext bytes
  rw [readEntries, accept]

theorem readEntries_succ (fuel : Nat) (values : Layout) (count : Nat)
    (taken : List (Key × Value)) :
    readEntries types fuel values (count + 1) taken = andThen readText fun key =>
      andThen (readDatum types fuel values) fun v =>
        readEntries types fuel values count (Value.setEntry key v taken) := by
  funext bytes
  rw [readEntries, andThen]
  rcases readText bytes with e | ⟨key, rest⟩
  · rfl
  · simp only [andThen]
    rcases readDatum types fuel values rest with e | ⟨v, rest⟩ <;> rfl

theorem readFields_nil (fuel : Nat) (taken : List (Key × Value)) :
    readFields types fuel [] taken = accept (some taken) := by
  funext bytes
  rw [readFields, accept]

theorem readFields_cons (fuel : Nat) (name : String) (default : Option Json) (layout : Layout)
    (fields : List (String × Option Json × Layout)) (taken : List (Key × Value)) :
    readFields types fuel ((name, default, layout) :: fields) taken =
      andThen (readDatum types fuel layout) fun v =>
        readFields types fuel fields (Value.setEntry name v taken) := by
  funext bytes
  rw [readFields, andThen]
  rcases readDatum types fuel layout bytes with e | ⟨v, rest⟩ <;> rfl

mutual

/-- A datum that is read is read with more fuel too, and whatever stands behind it. -/
theorem carries_datum {fuel fuel' : Nat} (hf : fuel ≤ fuel') (layout : Layout) :
    Carries (readDatum types fuel layout) (readDatum types fuel' layout) := by
  cases layout with
  | primitive type meaning =>
    rw [readDatum_primitive, readDatum_primitive]
    exact (carries_readPlain type).andThen fun _ => carries_accept _
  | array items =>
    intro bytes v rest hread
    rw [readDatum] at hread
    obtain ⟨body, hbody, hmore⟩ := (carries_blocks hf items []).map Value.list _ _ _ hread
    refine ⟨body, hbody, fun more => ?_⟩
    rw [readDatum]
    exact hmore more
  | map values =>
    intro bytes v rest hread
    rw [readDatum] at hread
    obtain ⟨body, hbody, hmore⟩ := (carries_mapBlocks hf values []).map Value.struct _ _ _ hread
    refine ⟨body, hbody, fun more => ?_⟩
    rw [readDatum]
    exact hmore more
  | union members =>
    rw [readDatum_union, readDatum_union]
    exact carries_readInt.andThen fun _ =>
      (carries_accept _).andThen fun i => carries_member hf members i
  | enum name symbols =>
    rw [readDatum_enum, readDatum_enum]
    exact carries_readInt.andThen fun _ => carries_accept _
  | fixed name size decimal =>
    cases size with
    | none =>
      intro bytes v rest hread
      rw [readDatum] at hread
      cases hread
    | some size =>
      rw [readDatum_fixed, readDatum_fixed]
      exact (carries_takeBytes size).andThen fun _ => carries_accept _
  | record name fields =>
    intro bytes v rest hread
    rw [readDatum] at hread
    obtain ⟨body, hbody, hmore⟩ := (carries_fields hf fields []).map Value.struct _ _ _ hread
    refine ⟨body, hbody, fun more => ?_⟩
    rw [readDatum]
    exact hmore more
  | reference name =>
    cases fuel with
    | zero =>
      intro bytes v rest hread
      rw [readDatum_outOfFuel] at hread
      cases hread
    | succ fuel =>
      obtain ⟨fuel', rfl⟩ : ∃ n, fuel' = n + 1 := ⟨fuel' - 1, by omega⟩
      rw [readDatum_reference, readDatum_reference]
      exact (carries_accept _).andThen fun layout =>
        carries_datum (Nat.le_of_succ_le_succ hf) layout
termination_by (fuel, sizeOf layout, 0)

theorem carries_blocks {fuel fuel' : Nat} (hf : fuel ≤ fuel') (items : Layout)
    (taken : List Value) :
    Carries (readBlocks types fuel items taken) (readBlocks types fuel' items taken) := by
  rw [readBlocks_eq fuel, readBlocks_eq fuel']
  refine carries_readBlockCount.andThen fun count => ?_
  split
  · exact carries_accept _
  · cases fuel with
    | zero => exact carries_none _
    | succ fuel =>
      obtain ⟨fuel', rfl⟩ : ∃ n, fuel' = n + 1 := ⟨fuel' - 1, by omega⟩
      have hf := Nat.le_of_succ_le_succ hf
      exact (carries_items hf items count).andThen fun vs => carries_blocks hf items (taken ++ vs)
termination_by (fuel, sizeOf items, 0)

theorem carries_items {fuel fuel' : Nat} (hf : fuel ≤ fuel') (items : Layout) (count : Nat) :
    Carries (readItems types fuel items count) (readItems types fuel' items count) := by
  cases count with
  | zero =>
    rw [readItems_zero, readItems_zero]
    exact carries_accept _
  | succ count =>
    rw [readItems_succ, readItems_succ]
    exact (carries_datum hf items).andThen fun v => (carries_items hf items count).map (v :: ·)
termination_by (fuel, sizeOf items, count + 1)

theorem carries_mapBlocks {fuel fuel' : Nat} (hf : fuel ≤ fuel') (values : Layout)
    (taken : List (Key × Value)) :
    Carries (readMapBlocks types fuel values taken) (readMapBlocks types fuel' values taken) := by
  rw [readMapBlocks_eq fuel, readMapBlocks_eq fuel']
  refine carries_readBlockCount.andThen fun count => ?_
  split
  · exact carries_accept _
  · cases fuel with
    | zero => exact carries_none _
    | succ fuel =>
      obtain ⟨fuel', rfl⟩ : ∃ n, fuel' = n + 1 := ⟨fuel' - 1, by omega⟩
      have hf := Nat.le_of_succ_le_succ hf
      exact (carries_entries hf values count taken).andThen fun taken =>
        carries_mapBlocks hf values taken
termination_by (fuel, sizeOf values, 0)

theorem carries_entries {fuel fuel' : Nat} (hf : fuel ≤ fuel') (values : Layout) (count : Nat)
    (taken : List (Key × Value)) :
    Carries (readEntries types fuel values count taken)
      (readEntries types fuel' values count taken) := by
  cases count with
  | zero =>
    rw [readEntries_zero, readEntries_zero]
    exact carries_accept _
  | succ count =>
    rw [readEntries_succ, readEntries_succ]
    exact carries_readText.andThen fun key => (carries_datum hf values).andThen fun v =>
      carries_entries hf values count (Value.setEntry key v taken)
termination_by (fuel, sizeOf values, count + 1)

theorem carries_member {fuel fuel' : Nat} (hf : fuel ≤ fuel') (members : List Layout)
    (index : Nat) :
    Carries (readMember types fuel members index) (readMember types fuel' members index) := by
  intro bytes v rest hread
  cases members with
  | nil =>
    rw [readMember] at hread
    cases hread
  | cons member members =>
    cases index with
    | zero =>
      rw [readMember] at hread
      obtain ⟨body, hbody, hmore⟩ := carries_datum hf member _ _ _ hread
      refine ⟨body, hbody, fun more => ?_⟩
      rw [readMember]
      exact hmore more
    | succ i =>
      rw [readMember] at hread
      obtain ⟨body, hbody, hmore⟩ := carries_member hf members i _ _ _ hread
      refine ⟨body, hbody, fun more => ?_⟩
      rw [readMember]
      exact hmore more
termination_by (fuel, sizeOf members, 0)

theorem carries_fields {fuel fuel' : Nat} (hf : fuel ≤ fuel')
    (fields : List (String × Option Json × Layout)) (taken : List (Key × Value)) :
    Carries (readFields types fuel fields taken) (readFields types fuel' fields taken) := by
  match fields with
  | [] =>
    rw [readFields_nil, readFields_nil]
    exact carries_accept _
  | (name, default, layout) :: fields =>
    rw [readFields_cons, readFields_cons]
    exact (carries_datum hf layout).andThen fun v =>
      carries_fields hf fields (Value.setEntry name v taken)
termination_by (fuel, sizeOf fields, 0)

end

end datum

theorem readDepth_mono (types : Declarations) {bytes bytes' : List UInt8}
    (h : bytes.length ≤ bytes'.length) : readDepth types bytes ≤ readDepth types bytes' :=
  Nat.mul_le_mul_right _ (Nat.succ_le_succ h)

/-- A datum that is read is read again in front of at least as many other bytes. -/
theorem read_extent {layout : Layout} {bytes rest : List UInt8} {v : Value}
    (h : read layout bytes = .ok (v, rest)) :
    ∃ body, bytes = body ++ rest ∧
      ∀ more, rest.length ≤ more.length → read layout (body ++ more) = .ok (v, more) := by
  have hbody : ∃ body, bytes = body ++ rest := by
    obtain ⟨body, hbody, _⟩ := carries_datum (Nat.le_refl _) layout _ _ _ h
    exact ⟨body, hbody⟩
  obtain ⟨body, rfl⟩ := hbody
  refine ⟨body, rfl, fun more hlength => ?_⟩
  have hdepth : readDepth layout.declarations (body ++ rest) ≤
      readDepth layout.declarations (body ++ more) := by
    apply readDepth_mono
    simp only [List.length_append]
    omega
  obtain ⟨body', hbody, hmore⟩ := carries_datum hdepth layout _ _ _ h
  cases List.append_cancel_right hbody
  exact hmore more

/-- Bytes that hold a datum for the reader of a layout, whatever stands behind them. -/
def Holds (layout : Layout) (bytes : List UInt8) (datum : Value) : Prop :=
  ∀ rest, read layout (bytes ++ rest) = .ok (datum, rest)

theorem holds_of_read {layout : Layout} {bytes : List UInt8} {v : Value}
    (h : read layout bytes = .ok (v, [])) : Holds layout bytes v := by
  obtain ⟨body, hbody, hread⟩ := read_extent h
  rw [List.append_nil] at hbody
  subst hbody
  exact fun rest => hread rest (Nat.zero_le _)

end Binary

/-! ## Containers -/

namespace Container

open Binary (Carries Reader andThen accept carries_accept carries_takeBytes carries_readInt
  carries_readSized)

theorem readBlock_eq (sync : List UInt8) :
    readBlock sync = andThen Binary.readInt fun count =>
      andThen Binary.readSized fun body =>
        andThen (Binary.takeBytes 16) fun mark =>
          accept (if mark = sync then some ⟨count.toNat, body⟩ else none) := by
  funext bytes
  rw [readBlock, andThen]
  rcases Binary.readInt bytes with e | ⟨count, rest⟩
  · rfl
  · simp only [andThen]
    rcases Binary.readSized rest with e | ⟨body, rest⟩
    · rfl
    · simp only
      rcases Binary.takeBytes 16 rest with e | ⟨mark, rest⟩
      · rfl
      · by_cases h : mark = sync
        · simp only [h, if_true, accept]
        · simp only [h, if_false, accept]

/-- A block that is read is read again, whatever stands behind it. -/
theorem readBlock_extent (sync : List UInt8) : Carries (readBlock sync) (readBlock sync) := by
  rw [readBlock_eq]
  exact carries_readInt.andThen fun count => carries_readSized.andThen fun body =>
    (carries_takeBytes 16).andThen fun mark => carries_accept _

/-- The header of the entries in front of the blocks. -/
def headerOf? (entries : List (Key × Value)) (sync : List UInt8) : Option Header :=
  match textEntries? entries with
  | none => none
  | some texts =>
    match (lookup? "avro.schema" texts).map (Json.read .floating) with
    | some (.ok schema) =>
      match Layout.ofSchema schema with
      | .ok layout => some ⟨schema, layout, (lookup? "avro.codec" texts).getD "null", sync⟩
      | .error _ => none
    | _ => none

/-- The parts of the front of a container. -/
structure Front (bytes : List UInt8) (header : Header) (rest : List UInt8) : Prop where
  parts : ∃ mark behindMark entries behindEntries sync,
    Binary.takeBytes 4 bytes = .ok (mark, behindMark) ∧
    Binary.read (.map (.primitive .bytes none)) behindMark = .ok (.struct entries, behindEntries) ∧
    Binary.takeBytes 16 behindEntries = .ok (sync, rest) ∧
    headerOf? entries sync = some header

theorem readHeader?_iff {bytes rest : List UInt8} {header : Header} :
    readHeader? bytes = some (header, rest) ↔ Front bytes header rest := by
  constructor
  · intro h
    rw [readHeader?] at h
    split at h
    · cases h
    rename_i mark behindMark hmark
    split at h
    rotate_left
    · cases h
    rename_i entries behindEntries hentries
    split at h
    rotate_left
    · cases h
    rename_i sync behindSync texts hsync htexts
    split at h
    rotate_left
    · cases h
    rename_i schema hschema
    split at h
    rotate_left
    · cases h
    rename_i layout hlayout
    cases h
    refine ⟨mark, behindMark, entries, behindEntries, sync, hmark, hentries, hsync, ?_⟩
    simp only [headerOf?, htexts, hschema, hlayout]
  · rintro ⟨mark, behindMark, entries, behindEntries, sync, hmark, hentries, hsync, hheader⟩
    rw [headerOf?] at hheader
    split at hheader
    · cases hheader
    rename_i texts htexts
    split at hheader
    rotate_left
    · cases hheader
    rename_i schema hschema
    split at hheader
    rotate_left
    · cases hheader
    rename_i layout hlayout
    cases hheader
    simp only [readHeader?, hmark, hentries, hsync, htexts, hschema, hlayout]

/-- A header that is read is read again in front of at least as many other bytes. -/
theorem readHeader?_extent {bytes rest : List UInt8} {header : Header}
    (h : readHeader? bytes = some (header, rest)) :
    ∃ body, bytes = body ++ rest ∧
      ∀ more, rest.length ≤ more.length → readHeader? (body ++ more) = some (header, more) := by
  obtain ⟨mark, behindMark, entries, behindEntries, sync, hmark, hentries, hsync, hheader⟩ :=
    readHeader?_iff.mp h
  obtain ⟨first, rfl, hfirst⟩ := carries_takeBytes 4 _ _ _ hmark
  obtain ⟨second, rfl, hsecond⟩ := Binary.read_extent hentries
  obtain ⟨third, rfl, hthird⟩ := carries_takeBytes 16 _ _ _ hsync
  refine ⟨first ++ second ++ third, by simp only [List.append_assoc], fun more hlength => ?_⟩
  have hread := hsecond (third ++ more) (by simp only [List.length_append]; omega)
  exact readHeader?_iff.mpr ⟨mark, _, entries, _, sync,
    by simpa only [List.append_assoc] using hfirst (second ++ (third ++ more)), hread, hthird more,
    hheader⟩

end Container
end AvroDocument
