import AvroDocument.Proofs.Association
import AvroDocument.Proofs.Bytes
import AvroDocument.Proofs.Extent

/-!
# AvroDocument.Proofs.Layouts

Data that are written and read back, layout by layout.

* `Writes`: a datum that fits a layout, and its bytes.
* `Reads`: bytes that hold a datum, whatever stands behind them.
* `writes_array`, `reads_array`, `writes_record`, `reads_record`, …: both for each kind of layout,
  given both for the layouts inside it. No layout here refers to another one.
-/

namespace AvroDocument
namespace Binary

/-- A datum that fits a layout, and its bytes. -/
structure Writes (layout : Layout) (datum : Value) (bytes : List UInt8) : Prop where
  fits : ∀ types fuel, fits types fuel layout datum = .ok true
  written : ∀ types fuel, writeDatum types fuel layout datum = .ok bytes

/-- Bytes that hold a datum, whatever stands behind them. Every block takes at least as many bytes
as it takes fuel. -/
def Reads (layout : Layout) (bytes : List UInt8) (datum : Value) : Prop :=
  ∀ types fuel, bytes.length ≤ fuel → ∀ rest,
    readDatum types fuel layout (bytes ++ rest) = .ok (datum, rest)

/-! ## Primitive layouts -/

section primitive

variable {type : Primitive} {meaning : Option Meaning}

theorem writes_primitive {datum plain : Value} {bytes : List UInt8}
    (hu : unwrap meaning datum = .ok plain) (hf : plainFits type plain = true)
    (hw : writePlain type plain = .ok bytes) : Writes (.primitive type meaning) datum bytes where
  fits types fuel := by
    rw [fits, hu]
    exact congrArg Except.ok hf
  written types fuel := by
    rw [writeDatum, hu]
    exact hw

theorem reads_primitive {datum plain : Value} {bytes : List UInt8}
    (hr : ∀ rest, readPlain type (bytes ++ rest) = .ok (plain, rest))
    (hw : wrap meaning plain = some datum) : Reads (.primitive type meaning) bytes datum := by
  intro types fuel _ rest
  rw [readDatum, hr]
  simp only [hw]

end primitive

theorem writes_null : Writes (.primitive .null none) .null [] := writes_primitive rfl rfl rfl

theorem reads_null : Reads (.primitive .null none) [] .null :=
  reads_primitive (fun _ => rfl) rfl

/-! ## Unions with null -/

section union

variable {layout : Layout} {datum : Value} {bytes : List UInt8}

theorem not_fits_null (types : Declarations) (fuel : Nat) (h : datum ≠ .null) :
    fits types fuel (.primitive .null none) datum = .ok false := by
  rw [fits]
  cases datum with
  | null => exact absurd rfl h
  | _ => rfl

theorem writes_absent : Writes (.union [.primitive .null none, layout]) .null
    (Varint.writeInt 0) where
  fits types fuel := by
    rw [fits, fitsSome, writes_null.fits]
  written types fuel := by
    rw [writeDatum]
    simp only [memberFor?, writes_null.fits, writeMember, writes_null.written]
    exact congrArg Except.ok (List.append_nil _)

theorem reads_absent : Reads (.union [.primitive .null none, layout]) (Varint.writeInt 0) .null := by
  intro types fuel _ rest
  rw [readDatum, readInt_writeInt]
  simp only [place?, List.length_cons, List.length_nil]
  rw [if_pos (by decide), if_pos (by decide)]
  simp only [Int.toNat_zero, readMember]
  exact reads_null types fuel (Nat.zero_le _) rest

theorem writes_present (h : Writes layout datum bytes) (hn : datum ≠ .null) :
    Writes (.union [.primitive .null none, layout]) datum (Varint.writeInt 1 ++ bytes) where
  fits types fuel := by
    rw [fits, fitsSome, not_fits_null types fuel hn]
    simp only [fitsSome, h.fits]
  written types fuel := by
    rw [writeDatum]
    simp only [memberFor?, not_fits_null types fuel hn, h.fits, Except.map, Option.map]
    simp only [writeMember, h.written]
    rfl

theorem reads_present (h : Reads layout bytes datum) :
    Reads (.union [.primitive .null none, layout]) (Varint.writeInt 1 ++ bytes) datum := by
  intro types fuel hfuel rest
  rw [List.length_append] at hfuel
  rw [readDatum, List.append_assoc, readInt_writeInt]
  simp only [place?, List.length_cons, List.length_nil]
  rw [if_pos (by decide), if_pos (by decide)]
  simp only [show (1 : Int).toNat = 1 from rfl, readMember]
  exact h types fuel (by omega) rest

end union

/-! ## Arrays -/

section array

variable {α : Type} {as : List α} {layout : Layout} {datum : α → Value} {bytes : α → List UInt8}

theorem fits_items (h : ∀ a ∈ as, Writes layout (datum a) (bytes a)) (types : Declarations)
    (fuel : Nat) : fitsItems types fuel layout (as.map datum) = .ok true := by
  induction as with
  | nil => rw [List.map_nil, fitsItems]
  | cons a as ih =>
    rw [List.map_cons, fitsItems, (h a List.mem_cons_self).fits]
    exact ih fun b hb => h b (List.mem_cons_of_mem _ hb)

theorem write_items (h : ∀ a ∈ as, Writes layout (datum a) (bytes a)) (types : Declarations)
    (fuel : Nat) : writeItems types fuel layout (as.map datum) = .ok (as.flatMap bytes) := by
  induction as with
  | nil =>
    rw [List.map_nil, writeItems]
    rfl
  | cons a as ih =>
    rw [List.map_cons, writeItems, (h a List.mem_cons_self).written,
      ih fun b hb => h b (List.mem_cons_of_mem _ hb), List.flatMap_cons]
    rfl

theorem writes_array (h : ∀ a ∈ as, Writes layout (datum a) (bytes a)) :
    Writes (.array layout) (.list (as.map datum)) (writeBlock as.length (as.flatMap bytes)) where
  fits types fuel := by
    rw [fits]
    exact fits_items h types fuel
  written types fuel := by
    rw [writeDatum]
    simp only [Value.items?, write_items h, List.length_map]
    rfl

theorem read_items {types : Declarations} {fuel : Nat}
    (h : ∀ a ∈ as, ∀ rest, readDatum types fuel layout (bytes a ++ rest) = .ok (datum a, rest))
    (rest : List UInt8) :
    readItems types fuel layout as.length (as.flatMap bytes ++ rest) =
      .ok (as.map datum, rest) := by
  induction as with
  | nil =>
    rw [List.length_nil, readItems]
    rfl
  | cons a as ih =>
    rw [List.length_cons, readItems, List.flatMap_cons, List.append_assoc, h a List.mem_cons_self]
    simp only [ih fun b hb => h b (List.mem_cons_of_mem _ hb)]
    rfl

theorem readBlockCount_writeInt (count : Nat) (rest : List UInt8) :
    readBlockCount (Varint.writeInt count ++ rest) = .ok (count, rest) := by
  rw [readBlockCount, readInt_writeInt]
  simp

theorem readBlocks_end {types : Declarations} {fuel : Nat} (taken : List Value)
    (rest : List UInt8) : readBlocks types fuel layout taken ([0] ++ rest) = .ok (taken, rest) := by
  have h0 : readBlockCount ([0] ++ rest) = .ok (0, rest) :=
    Varint.writeInt_zero ▸ readBlockCount_writeInt 0 rest
  rw [readBlocks]
  simp only [h0]

/-- An array takes a unit of fuel more than its items. -/
theorem read_array {types : Declarations} {fuel : Nat}
    (h : ∀ a ∈ as, ∀ rest, readDatum types fuel layout (bytes a ++ rest) = .ok (datum a, rest))
    (rest : List UInt8) :
    readDatum types (fuel + 1) (.array layout)
        (writeBlock as.length (as.flatMap bytes) ++ rest) = .ok (.list (as.map datum), rest) := by
  rw [readDatum]
  cases as with
  | nil =>
    rw [List.length_nil, writeBlock, if_pos rfl, readBlocks_end]
    rfl
  | cons a as =>
    rw [writeBlock, if_neg (by simp), List.append_assoc, List.append_assoc, readBlocks,
      readBlockCount_writeInt]
    simp only [List.length_cons]
    have hbody := read_items h ([0] ++ rest)
    rw [List.length_cons] at hbody
    simp only [hbody, readBlocks_end]
    rfl

theorem length_le_flatMap {a : α} (ha : a ∈ as) :
    (bytes a).length ≤ (as.flatMap bytes).length := by
  obtain ⟨before, behind, rfl⟩ := List.append_of_mem ha
  rw [List.flatMap_append, List.flatMap_cons, List.length_append, List.length_append]
  omega

theorem reads_array (h : ∀ a ∈ as, Reads layout (bytes a) (datum a)) :
    Reads (.array layout) (writeBlock as.length (as.flatMap bytes)) (.list (as.map datum)) := by
  intro types fuel hfuel rest
  have hlength : 0 < fuel ∧ ∀ a ∈ as, (bytes a).length < fuel := by
    cases as with
    | nil =>
      rw [List.length_nil, writeBlock, if_pos rfl, List.length_singleton] at hfuel
      exact ⟨hfuel, fun _ ha => nomatch ha⟩
    | cons b bs =>
      rw [writeBlock, if_neg (by simp), List.length_append, List.length_append,
        List.length_singleton] at hfuel
      refine ⟨by omega, fun a ha => ?_⟩
      have hle : (bytes a).length ≤ ((b :: bs).flatMap bytes).length := length_le_flatMap ha
      omega
  obtain ⟨fuel, rfl⟩ : ∃ n, fuel = n + 1 := ⟨fuel - 1, by omega⟩
  exact read_array (fun a ha => h a ha types fuel (Nat.le_of_lt_succ (hlength.2 a ha))) rest

end array

/-! ## Records -/

section record

variable {α : Type} {as : List α} {label : α → String} {default : α → Option Json}
  {layout : α → Layout} {datum : α → Value} {bytes : α → List UInt8}

/-- The layouts of some fields. -/
def fieldsFor (label : α → String) (default : α → Option Json) (layout : α → Layout)
    (as : List α) : List (String × Option Json × Layout) :=
  as.map fun a => (label a, default a, layout a)

/-- The entries of some fields. -/
def entriesFor (label : α → String) (datum : α → Value) (as : List α) : List (Key × Value) :=
  as.map fun a => (.text (label a), datum a)

theorem nodup_entriesFor (hn : (as.map label).Nodup) :
    ((entriesFor label datum as).map (·.1)).Nodup := by
  rw [entriesFor, List.map_map]
  rw [List.nodup_iff_pairwise_ne, List.pairwise_map] at hn ⊢
  exact hn.imp fun hne e => hne (Key.text.inj e)

theorem member?_entriesFor (hn : (as.map label).Nodup) {a : α} (ha : a ∈ as) :
    Value.member? (label a) (entriesFor label datum as) = some (datum a) :=
  Value.member?_of_mem (nodup_entriesFor hn) (List.mem_map.mpr ⟨a, ha, rfl⟩)

theorem fieldValue_own {es : List (Key × Value)} {a : α}
    (h : Value.member? (label a) es = some (datum a)) :
    fieldValue es (label a) (default a) = datum a := by
  rw [fieldValue, h]

theorem fits_fields {es : List (Key × Value)}
    (hes : ∀ a ∈ as, Value.member? (label a) es = some (datum a))
    (h : ∀ a ∈ as, Writes (layout a) (datum a) (bytes a)) (types : Declarations) (fuel : Nat) :
    fitsFields types fuel (fieldsFor label default layout as) es = .ok true := by
  induction as with
  | nil =>
    unfold fieldsFor
    rw [List.map_nil, fitsFields]
  | cons a as ih =>
    unfold fieldsFor
    rw [List.map_cons, fitsFields, fieldValue_own (hes a List.mem_cons_self),
      (h a List.mem_cons_self).fits]
    exact ih (fun b hb => hes b (List.mem_cons_of_mem _ hb)) fun b hb =>
      h b (List.mem_cons_of_mem _ hb)

theorem write_fields {es : List (Key × Value)}
    (hes : ∀ a ∈ as, Value.member? (label a) es = some (datum a))
    (h : ∀ a ∈ as, Writes (layout a) (datum a) (bytes a)) (types : Declarations) (fuel : Nat) :
    writeFields types fuel (fieldsFor label default layout as) es = .ok (as.flatMap bytes) := by
  induction as with
  | nil =>
    unfold fieldsFor
    rw [List.map_nil, writeFields]
    rfl
  | cons a as ih =>
    have hrest := ih (fun b hb => hes b (List.mem_cons_of_mem _ hb)) fun b hb =>
      h b (List.mem_cons_of_mem _ hb)
    unfold fieldsFor at hrest ⊢
    rw [List.map_cons, writeFields, fieldValue_own (hes a List.mem_cons_self),
      (h a List.mem_cons_self).written, hrest, List.flatMap_cons]
    rfl

theorem writes_record (name : String) (hn : (as.map label).Nodup)
    (h : ∀ a ∈ as, Writes (layout a) (datum a) (bytes a)) :
    Writes (.record name (fieldsFor label default layout as)) (.struct (entriesFor label datum as))
      (as.flatMap bytes) := by
  have hes : ∀ a ∈ as, Value.member? (label a) (entriesFor label datum as) = some (datum a) :=
    fun a ha => member?_entriesFor hn ha
  refine ⟨fun types fuel => ?_, fun types fuel => ?_⟩
  · rw [fits]
    exact fits_fields hes h types fuel
  · cases as with
    | nil =>
      unfold fieldsFor
      rw [List.map_nil, writeDatum]
      rfl
    | cons a as =>
      rw [writeDatum]
      · exact write_fields hes h types fuel
      · exact List.cons_ne_nil _ _

theorem read_fields {types : Declarations} {fuel : Nat} (hn : (as.map label).Nodup)
    (h : ∀ a ∈ as, ∀ rest, readDatum types fuel (layout a) (bytes a ++ rest) = .ok (datum a, rest))
    {taken : List (Key × Value)} (ht : ∀ a ∈ as, Key.text (label a) ∉ taken.map (·.1))
    (rest : List UInt8) :
    readFields types fuel (fieldsFor label default layout as) taken (as.flatMap bytes ++ rest) =
      .ok (taken ++ entriesFor label datum as, rest) := by
  induction as generalizing taken with
  | nil =>
    unfold fieldsFor entriesFor
    rw [List.map_nil, readFields, List.map_nil, List.append_nil]
    rfl
  | cons a as ih =>
    rw [List.map_cons, List.nodup_cons] at hn
    have hnew : ∀ b ∈ as,
        Key.text (label b) ∉ (taken ++ [(Key.text (label a), datum a)]).map (·.1) := by
      intro b hb hm
      rw [List.map_append, List.mem_append] at hm
      rcases hm with hm | hm
      · exact ht b (List.mem_cons_of_mem _ hb) hm
      · rw [List.map_singleton, List.mem_singleton, Key.text.injEq] at hm
        exact hn.1 (hm ▸ List.mem_map_of_mem hb)
    have hrest := ih hn.2 (fun b hb => h b (List.mem_cons_of_mem _ hb)) hnew
    unfold fieldsFor entriesFor at hrest ⊢
    rw [List.map_cons, readFields, List.flatMap_cons, List.append_assoc, h a List.mem_cons_self]
    simp only [Value.setEntry_new (ht a List.mem_cons_self), hrest]
    rw [List.map_cons, List.append_assoc]
    rfl

theorem read_record {types : Declarations} {fuel : Nat} (name : String)
    (hn : (as.map label).Nodup)
    (h : ∀ a ∈ as, ∀ rest, readDatum types fuel (layout a) (bytes a ++ rest) = .ok (datum a, rest))
    (rest : List UInt8) :
    readDatum types fuel (.record name (fieldsFor label default layout as))
      (as.flatMap bytes ++ rest) = .ok (.struct (entriesFor label datum as), rest) := by
  have hfields : readFields types fuel (fieldsFor label default layout as) []
      (as.flatMap bytes ++ rest) = .ok (entriesFor label datum as, rest) :=
    read_fields hn h (fun _ _ => List.not_mem_nil) rest
  rw [readDatum, hfields]
  rfl

theorem reads_record (name : String) (hn : (as.map label).Nodup)
    (h : ∀ a ∈ as, Reads (layout a) (bytes a) (datum a)) :
    Reads (.record name (fieldsFor label default layout as)) (as.flatMap bytes)
      (.struct (entriesFor label datum as)) := by
  intro types fuel hfuel rest
  exact read_record name hn
    (fun a ha => h a ha types fuel (Nat.le_trans (length_le_flatMap ha) hfuel)) rest

end record

/-! ## Whole data -/

theorem Writes.write_eq {layout : Layout} {datum : Value} {bytes : List UInt8}
    (h : Writes layout datum bytes) : write layout datum = .ok bytes :=
  h.written _ _

theorem Reads.holds {layout : Layout} {datum : Value} {bytes : List UInt8}
    (h : Reads layout bytes datum) : Holds layout bytes datum := by
  intro rest
  refine h _ _ ?_ rest
  have h1 : bytes.length ≤ (bytes ++ rest).length + 1 := by
    rw [List.length_append]
    omega
  exact Nat.le_trans h1 (Nat.le_mul_of_pos_right _ (by omega))

end Binary
end AvroDocument
