import AvroDocument.Proofs.Association
import AvroDocument.Proofs.Extent
import Mathlib.Data.List.Perm.Subperm
import Mathlib.Data.Nat.Find

/-!
# AvroDocument.Proofs.ReadDepth

Reading needs no more fuel than it is given.

A type that comes up a second time before a byte was taken would come up for ever, so between two
bytes each type is entered once at most. `Room` counts what is left: the types that are not entered
yet, and for every byte behind them all types again and a block.

* `Binary.serves_datum`: what is read with any fuel is read with the fuel that there is room for.
* `Binary.read_of_readDatum`: `readDepth` is fuel enough.
-/

namespace AvroDocument
namespace Binary

variable {types : Declarations} {fuel fuel' : Nat} {bytes rest : List UInt8}

/-! ## Bytes that are taken -/

theorem andThen_ok {α β : Type} {first : Reader α} {next : α → Reader β} {r : β × List UInt8} :
    andThen first next bytes = .ok r ↔
      ∃ a rest, first bytes = .ok (a, rest) ∧ next a rest = .ok r := by
  rw [andThen]
  constructor
  · intro h
    cases hfirst : first bytes with
    | error e =>
      rw [hfirst] at h
      cases h
    | ok result =>
      rw [hfirst] at h
      exact ⟨result.1, result.2, rfl, h⟩
  · rintro ⟨a, rest, hfirst, hnext⟩
    rw [hfirst]
    exact hnext

theorem map_ok {α β : Type} {result : ReadResult α} {f : α → β} {r : β × List UInt8}
    (h : (result.map fun (a, rest) => (f a, rest)) = .ok r) :
    ∃ a rest, result = .ok (a, rest) ∧ r = (f a, rest) := by
  cases result with
  | error e => cases h
  | ok found =>
    cases h
    exact ⟨found.1, found.2, rfl, rfl⟩

theorem Carries.suffix {α : Type} {first later : Reader α} (h : Carries first later) {a : α}
    (hread : first bytes = .ok (a, rest)) : rest <:+ bytes := by
  obtain ⟨body, rfl, -⟩ := h _ _ _ hread
  exact List.suffix_append _ _

theorem readBlockCount_shorter {n : Nat} (h : readBlockCount bytes = .ok (n, rest)) :
    rest.length < bytes.length := by
  obtain ⟨body, rfl, hmore⟩ := carries_readBlockCount _ _ _ h
  cases body with
  | nil =>
    -- Nothing is read from no bytes.
    have hnone := hmore []
    cases hnone
  | cons b body =>
    rw [List.cons_append, List.length_cons, List.length_append]
    omega

theorem readDatum_more (hf : fuel ≤ fuel') {layout : Layout} {r : Value × List UInt8}
    (h : readDatum types fuel layout bytes = .ok r) : readDatum types fuel' layout bytes = .ok r := by
  obtain ⟨body, rfl, hmore⟩ := carries_datum hf layout _ _ _ h
  exact hmore _

/-! ## Room -/

/-- Types that are entered at some bytes, and that are not read there with less fuel. -/
structure Entered (types : Declarations) (fuel : Nat) (bytes : List UInt8) (names : List String) :
    Prop where
  distinct : names.Nodup
  known : ∀ name ∈ names, name ∈ types.map (·.1)
  stuck : ∀ name ∈ names, ∀ layout, lookup? name types = some layout →
    ∀ less < fuel, ∀ r, readDatum types less layout bytes ≠ .ok r

/-- Fuel for what is read at some bytes with any other fuel. -/
def Room (types : Declarations) (fuel : Nat) (bytes : List UInt8) (fuel' : Nat) : Prop :=
  ∃ names, Entered types fuel bytes names ∧
    types.length - names.length + bytes.length * (types.length + 2) ≤ fuel'

theorem Entered.nil : Entered types fuel bytes [] :=
  ⟨List.nodup_nil, fun _ h => (nomatch h), fun _ h => (nomatch h)⟩

theorem Entered.length_le {names : List String} (h : Entered types fuel bytes names) :
    names.length ≤ types.length := by
  have hle := (h.distinct.subperm h.known).length_le
  rwa [List.length_map] at hle

theorem Room.mono {more : Nat} (h : Room types fuel bytes fuel') (hf : fuel' ≤ more) :
    Room types fuel bytes more := by
  obtain ⟨names, hnames, hroom⟩ := h
  exact ⟨names, hnames, Nat.le_trans hroom hf⟩

/-- Behind a byte no type is entered, and a block may be. -/
theorem Room.shorter (h : Room types fuel bytes fuel') (hrest : rest.length < bytes.length) :
    ∃ k, fuel' = k + 1 ∧ ∀ fuel, Room types fuel rest k := by
  obtain ⟨names, hnames, hroom⟩ := h
  have hmul := Nat.mul_le_mul_right (types.length + 2) (show rest.length + 1 ≤ bytes.length from hrest)
  rw [Nat.add_mul, Nat.one_mul] at hmul
  refine ⟨fuel' - 1, by omega, fun _ => ⟨[], Entered.nil, ?_⟩⟩
  rw [List.length_nil]
  omega

theorem Room.suffix (h : Room types fuel bytes fuel') (hrest : rest <:+ bytes) :
    Room types fuel rest fuel' := by
  obtain hlt | heq := Nat.lt_or_eq_of_le hrest.length_le
  · obtain ⟨k, rfl, hroom⟩ := h.shorter hlt
    exact (hroom fuel).mono (Nat.le_succ k)
  · rwa [hrest.eq_of_length heq]

/-- A type is entered with the least fuel with which it is read. -/
theorem Room.enter (h : Room types (fuel + 1) bytes fuel') {name : String} {layout : Layout}
    (hlookup : lookup? name types = some layout) {r : Value × List UInt8}
    (hread : readDatum types fuel layout bytes = .ok r) :
    ∃ least k, least ≤ fuel ∧ fuel' = k + 1 ∧ readDatum types least layout bytes = .ok r ∧
      Room types least bytes k := by
  classical
  have hsome : ∃ n r, readDatum types n layout bytes = .ok r := ⟨fuel, r, hread⟩
  obtain ⟨r', hleast⟩ := Nat.find_spec hsome
  have hle : Nat.find hsome ≤ fuel := Nat.find_min' hsome ⟨r, hread⟩
  have hsame := readDatum_more hle hleast
  rw [hread] at hsame
  cases hsame
  obtain ⟨names, hnames, hroom⟩ := h
  have hfresh : name ∉ names := fun hname =>
    hnames.stuck name hname layout hlookup fuel (Nat.lt_succ_self fuel) _ hread
  have hentered : Entered types (Nat.find hsome) bytes (name :: names) := by
    refine ⟨List.nodup_cons.mpr ⟨hfresh, hnames.distinct⟩, ?_, ?_⟩
    · intro other hother
      obtain rfl | hother := List.mem_cons.mp hother
      · exact List.mem_map_of_mem (mem_of_lookup? hlookup)
      · exact hnames.known other hother
    · intro other hother layout' hlookup' less hless r' hr'
      obtain rfl | hother := List.mem_cons.mp hother
      · rw [hlookup] at hlookup'
        cases hlookup'
        exact Nat.find_min hsome hless ⟨r', hr'⟩
      · exact hnames.stuck other hother layout' hlookup' less (by omega) r' hr'
  have hlength := hentered.length_le
  rw [List.length_cons] at hlength
  refine ⟨Nat.find hsome, fuel' - 1, hle, by omega, hleast, name :: names, hentered, ?_⟩
  rw [List.length_cons]
  omega

/-! ## Data of any layout -/

mutual

/-- What is read with any fuel is read with the fuel that there is room for. -/
theorem serves_datum {types : Declarations} {fuel fuel' : Nat} {bytes : List UInt8}
    (hroom : Room types fuel bytes fuel') (layout : Layout) {r : Value × List UInt8}
    (h : readDatum types fuel layout bytes = .ok r) : readDatum types fuel' layout bytes = .ok r := by
  cases layout with
  | primitive type meaning =>
    rw [readDatum_primitive] at h ⊢
    exact h
  | array items =>
    rw [readDatum] at h ⊢
    obtain ⟨vs, rest, hblocks, rfl⟩ := map_ok h
    rw [serves_blocks hroom items [] hblocks]
    rfl
  | map values =>
    rw [readDatum] at h ⊢
    obtain ⟨entries, rest, hblocks, rfl⟩ := map_ok h
    rw [serves_mapBlocks hroom values [] hblocks]
    rfl
  | union members =>
    rw [readDatum_union, andThen_ok] at h ⊢
    obtain ⟨n, rest, hn, h⟩ := h
    obtain ⟨i, rest', hi, h⟩ := andThen_ok.mp h
    have hbehind := (hroom.suffix (carries_readInt.suffix hn)).suffix ((carries_accept _).suffix hi)
    exact ⟨n, rest, hn, andThen_ok.mpr ⟨i, rest', hi, serves_member hbehind members i h⟩⟩
  | enum name symbols =>
    rw [readDatum_enum] at h ⊢
    exact h
  | fixed name size decimal =>
    cases size with
    | none =>
      rw [readDatum] at h
      cases h
    | some size =>
      rw [readDatum_fixed] at h ⊢
      exact h
  | record name fields =>
    rw [readDatum] at h ⊢
    obtain ⟨entries, rest, hfields, rfl⟩ := map_ok h
    rw [serves_fields hroom fields [] hfields]
    rfl
  | reference name =>
    cases fuel with
    | zero =>
      rw [readDatum_outOfFuel] at h
      cases h
    | succ fuel =>
      rw [readDatum_reference, andThen_ok] at h
      obtain ⟨layout, rest, hlookup, h⟩ := h
      cases hname : lookup? name types with
      | none =>
        rw [hname] at hlookup
        cases hlookup
      | some found =>
        rw [hname] at hlookup
        cases hlookup
        obtain ⟨least, k, hle, rfl, hleast, hinside⟩ := hroom.enter hname h
        rw [readDatum_reference, andThen_ok]
        exact ⟨layout, bytes, by rw [hname]; rfl, serves_datum hinside layout hleast⟩
termination_by (fuel, sizeOf layout, 0)

theorem serves_blocks {types : Declarations} {fuel fuel' : Nat} {bytes : List UInt8}
    (hroom : Room types fuel bytes fuel') (items : Layout) (taken : List Value)
    {r : List Value × List UInt8} (h : readBlocks types fuel items taken bytes = .ok r) :
    readBlocks types fuel' items taken bytes = .ok r := by
  rw [readBlocks_eq, andThen_ok] at h ⊢
  obtain ⟨count, rest, hcount, h⟩ := h
  refine ⟨count, rest, hcount, ?_⟩
  by_cases hzero : count = 0
  · rw [if_pos hzero] at h ⊢
    exact h
  rw [if_neg hzero] at h ⊢
  obtain ⟨k, rfl, hblock⟩ := hroom.shorter (readBlockCount_shorter hcount)
  cases fuel with
  | zero => cases h
  | succ fuel =>
    obtain ⟨vs, rest', hitems, h⟩ := andThen_ok.mp h
    have hbehind := (hblock fuel).suffix ((carries_items (Nat.le_refl fuel) items count).suffix hitems)
    exact andThen_ok.mpr ⟨vs, rest', serves_items (hblock fuel) items count hitems,
      serves_blocks hbehind items (taken ++ vs) h⟩
termination_by (fuel, sizeOf items, 0)

theorem serves_items {types : Declarations} {fuel fuel' : Nat} {bytes : List UInt8}
    (hroom : Room types fuel bytes fuel') (items : Layout) (count : Nat)
    {r : List Value × List UInt8} (h : readItems types fuel items count bytes = .ok r) :
    readItems types fuel' items count bytes = .ok r := by
  cases count with
  | zero =>
    rw [readItems_zero] at h ⊢
    exact h
  | succ count =>
    rw [readItems_succ, andThen_ok] at h ⊢
    obtain ⟨v, rest, hv, h⟩ := h
    obtain ⟨vs, rest', hvs, rfl⟩ := map_ok h
    have hbehind := hroom.suffix ((carries_datum (Nat.le_refl fuel) items).suffix hv)
    refine ⟨v, rest, serves_datum hroom items hv, ?_⟩
    rw [serves_items hbehind items count hvs]
    rfl
termination_by (fuel, sizeOf items, count + 1)

theorem serves_mapBlocks {types : Declarations} {fuel fuel' : Nat} {bytes : List UInt8}
    (hroom : Room types fuel bytes fuel') (values : Layout) (taken : List (Key × Value))
    {r : List (Key × Value) × List UInt8}
    (h : readMapBlocks types fuel values taken bytes = .ok r) :
    readMapBlocks types fuel' values taken bytes = .ok r := by
  rw [readMapBlocks_eq, andThen_ok] at h ⊢
  obtain ⟨count, rest, hcount, h⟩ := h
  refine ⟨count, rest, hcount, ?_⟩
  by_cases hzero : count = 0
  · rw [if_pos hzero] at h ⊢
    exact h
  rw [if_neg hzero] at h ⊢
  obtain ⟨k, rfl, hblock⟩ := hroom.shorter (readBlockCount_shorter hcount)
  cases fuel with
  | zero => cases h
  | succ fuel =>
    obtain ⟨taken', rest', hentries, h⟩ := andThen_ok.mp h
    have hbehind := (hblock fuel).suffix
      ((carries_entries (Nat.le_refl fuel) values count taken).suffix hentries)
    exact andThen_ok.mpr ⟨taken', rest', serves_entries (hblock fuel) values count taken hentries,
      serves_mapBlocks hbehind values taken' h⟩
termination_by (fuel, sizeOf values, 0)

theorem serves_entries {types : Declarations} {fuel fuel' : Nat} {bytes : List UInt8}
    (hroom : Room types fuel bytes fuel') (values : Layout) (count : Nat)
    (taken : List (Key × Value)) {r : List (Key × Value) × List UInt8}
    (h : readEntries types fuel values count taken bytes = .ok r) :
    readEntries types fuel' values count taken bytes = .ok r := by
  cases count with
  | zero =>
    rw [readEntries_zero] at h ⊢
    exact h
  | succ count =>
    rw [readEntries_succ, andThen_ok] at h ⊢
    obtain ⟨key, rest, hkey, h⟩ := h
    obtain ⟨v, rest', hv, h⟩ := andThen_ok.mp h
    have hvalue := hroom.suffix (carries_readText.suffix hkey)
    have hbehind := hvalue.suffix ((carries_datum (Nat.le_refl fuel) values).suffix hv)
    exact ⟨key, rest, hkey, andThen_ok.mpr ⟨v, rest', serves_datum hvalue values hv,
      serves_entries hbehind values count _ h⟩⟩
termination_by (fuel, sizeOf values, count + 1)

theorem serves_member {types : Declarations} {fuel fuel' : Nat} {bytes : List UInt8}
    (hroom : Room types fuel bytes fuel') (members : List Layout) (index : Nat)
    {r : Value × List UInt8} (h : readMember types fuel members index bytes = .ok r) :
    readMember types fuel' members index bytes = .ok r := by
  cases members with
  | nil =>
    rw [readMember] at h
    cases h
  | cons member members =>
    cases index with
    | zero =>
      rw [readMember] at h ⊢
      exact serves_datum hroom member h
    | succ i =>
      rw [readMember] at h ⊢
      exact serves_member hroom members i h
termination_by (fuel, sizeOf members, 0)

theorem serves_fields {types : Declarations} {fuel fuel' : Nat} {bytes : List UInt8}
    (hroom : Room types fuel bytes fuel') (fields : List (String × Option Json × Layout))
    (taken : List (Key × Value)) {r : List (Key × Value) × List UInt8}
    (h : readFields types fuel fields taken bytes = .ok r) :
    readFields types fuel' fields taken bytes = .ok r := by
  match fields with
  | [] =>
    rw [readFields_nil] at h ⊢
    exact h
  | (name, default, layout) :: fields =>
    rw [readFields_cons, andThen_ok] at h ⊢
    obtain ⟨v, rest, hv, h⟩ := h
    have hbehind := hroom.suffix ((carries_datum (Nat.le_refl fuel) layout).suffix hv)
    exact ⟨v, rest, serves_datum hroom layout hv, serves_fields hbehind fields _ h⟩
termination_by (fuel, sizeOf fields, 0)

end

/-- What is read with any fuel is read. -/
theorem read_of_readDatum {layout : Layout} {r : Value × List UInt8}
    (h : readDatum layout.declarations fuel layout bytes = .ok r) : read layout bytes = .ok r := by
  refine serves_datum ⟨[], Entered.nil, ?_⟩ layout h
  rw [List.length_nil, readDepth, Nat.add_mul, Nat.one_mul]
  omega

end Binary
end AvroDocument
