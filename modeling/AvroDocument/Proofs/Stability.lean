import AvroDocument.Proofs.Layouts
import AvroDocument.Proofs.Regular

/-!
# AvroDocument.Proofs.Stability

Data that are written in the same bytes after they were read back.

* `Binary.Stable`: a datum, and the one that is read back for it and written in its place.
* `stable_primitive`, `stable_array`, `stable_record`, `stable_union`, `stable_absent`,
  `stable_reference`: for each kind of layout, given the same for the layouts inside it.
-/

namespace AvroDocument
namespace Binary

/-- A datum and the one that is read back for it. Both fit the same layouts and are written in the
same bytes, with whatever fuel. -/
structure Stable (types : Declarations) (layout : Layout) (datum stored : Value) : Prop where
  fits : ∀ fuel, fits types fuel layout stored = fits types fuel layout datum
  written : ∀ fuel, writeDatum types fuel layout stored = writeDatum types fuel layout datum
  size : stored.nodeCount = datum.nodeCount
  read : ∀ fuel bytes, writeDatum types fuel layout datum = .ok bytes →
    ∃ least, ∀ more, least ≤ more → ∀ rest,
      readDatum types more layout (bytes ++ rest) = .ok (stored, rest)

section stable

variable {types : Declarations} {layout : Layout} {datum stored : Value}

/-- What is read back is read back once more. -/
theorem Stable.again (h : Stable types layout datum stored) : Stable types layout stored stored where
  fits _ := rfl
  written _ := rfl
  size := rfl
  read fuel bytes hwrite := h.read fuel bytes (h.written fuel ▸ hwrite)

/-! ## Primitive layouts and references -/

theorem stable_primitive {type : Primitive} {meaning : Option Meaning} {plain plain' : Value}
    {bytes : List UInt8} (hu : unwrap meaning datum = .ok plain)
    (hu' : unwrap meaning stored = .ok plain') (hf : plainFits type plain' = plainFits type plain)
    (hw : writePlain type plain = .ok bytes) (hw' : writePlain type plain' = .ok bytes)
    (hr : ∀ rest, readPlain type (bytes ++ rest) = .ok (plain', rest))
    (hwrap : wrap meaning plain' = some stored) (hsize : stored.nodeCount = datum.nodeCount) :
    Stable types (.primitive type meaning) datum stored where
  fits fuel := by
    rw [Binary.fits, Binary.fits, hu, hu']
    exact congrArg Except.ok hf
  written fuel := by
    rw [writeDatum, writeDatum, hu, hu']
    simp only [hw, hw']
  size := hsize
  read fuel bytes' hwrite := by
    refine ⟨0, fun more _ rest => ?_⟩
    rw [writeDatum, hu] at hwrite
    simp only [hw] at hwrite
    cases hwrite
    rw [readDatum, hr]
    simp only [hwrap]

theorem stable_null : Stable types (.primitive .null none) .null .null :=
  stable_primitive rfl rfl rfl rfl rfl (fun _ => rfl) rfl rfl

theorem stable_reference {name : String} (h : Stable types layout datum stored)
    (hlookup : lookup? name types = some layout) :
    Stable types (.reference name) datum stored where
  fits fuel := by
    cases fuel with
    | zero => rw [Binary.fits.eq_def, Binary.fits.eq_def]
    | succ fuel =>
      rw [Binary.fits.eq_def, Binary.fits.eq_def types (fuel + 1) _ datum]
      simp only [hlookup, h.fits]
  written fuel := by
    cases fuel with
    | zero => rw [writeDatum.eq_def, writeDatum.eq_def]
    | succ fuel =>
      rw [writeDatum.eq_def, writeDatum.eq_def types (fuel + 1) _ datum]
      simp only [hlookup, h.written]
  size := h.size
  read fuel bytes hwrite := by
    cases fuel with
    | zero =>
      rw [writeDatum.eq_def] at hwrite
      cases hwrite
    | succ fuel =>
      rw [writeDatum.eq_def] at hwrite
      simp only [hlookup] at hwrite
      obtain ⟨least, hread⟩ := h.read fuel bytes hwrite
      refine ⟨least + 1, fun more hmore rest => ?_⟩
      obtain ⟨more, rfl⟩ : ∃ n, more = n + 1 := ⟨more - 1, by omega⟩
      rw [readDatum.eq_def]
      simp only [hlookup]
      exact hread more (Nat.le_of_succ_le_succ hmore) rest

/-! ## Unions -/

theorem writeMember_eq {members : List Layout} {i : Nat} (h : members[i]? = some layout)
    (fuel : Nat) : writeMember types fuel members i datum = writeDatum types fuel layout datum := by
  induction members generalizing i with
  | nil => cases h
  | cons member members ih =>
    cases i with
    | zero =>
      cases h
      rw [writeMember]
    | succ i =>
      rw [writeMember]
      exact ih h

theorem readMember_eq {members : List Layout} {i : Nat} (h : members[i]? = some layout)
    (fuel : Nat) (bytes : List UInt8) :
    readMember types fuel members i bytes = readDatum types fuel layout bytes := by
  induction members generalizing i with
  | nil => cases h
  | cons member members ih =>
    cases i with
    | zero =>
      cases h
      rw [readMember]
    | succ i =>
      rw [readMember]
      exact ih h

theorem memberFor?_some {members : List Layout} {fuel i : Nat}
    (h : memberFor? types fuel datum members = .ok (some i)) :
    ∃ layout, members[i]? = some layout ∧ fits types fuel layout datum = .ok true := by
  induction members generalizing i with
  | nil => cases h
  | cons member members ih =>
    rw [memberFor?] at h
    split at h
    · cases h
    · rename_i hfits
      cases h
      exact ⟨member, rfl, hfits⟩
    · cases hrest : memberFor? types fuel datum members with
      | error e =>
        rw [hrest] at h
        cases h
      | ok found =>
        rw [hrest] at h
        cases found with
        | none => cases h
        | some j =>
          cases h
          exact ih hrest

theorem place?_natCast {i length : Nat} (h : i < length) : place? (i : Int) length = some i := by
  rw [place?, if_pos (Int.natCast_nonneg i), if_pos (by exact_mod_cast h), Int.toNat_natCast]

/-- A union is read back when the member is that a datum is written as. -/
theorem read_union {members : List Layout} {fuel : Nat} {bytes : List UInt8}
    (hwrite : writeDatum types fuel (.union members) datum = .ok bytes)
    (hread : ∀ layout ∈ members, fits types fuel layout datum = .ok true → ∀ body,
      writeDatum types fuel layout datum = .ok body → ∃ least, ∀ more, least ≤ more → ∀ rest,
        readDatum types more layout (body ++ rest) = .ok (stored, rest)) :
    ∃ least, ∀ more, least ≤ more → ∀ rest,
      readDatum types more (.union members) (bytes ++ rest) = .ok (stored, rest) := by
  rw [writeDatum] at hwrite
  split at hwrite
  · cases hwrite
  · cases hwrite
  · rename_i i hmember
    obtain ⟨layout, hlayout, hfits⟩ := memberFor?_some hmember
    rw [writeMember_eq hlayout] at hwrite
    cases hbody : writeDatum types fuel layout datum with
    | error e =>
      rw [hbody] at hwrite
      cases hwrite
    | ok body =>
      rw [hbody] at hwrite
      cases hwrite
      obtain ⟨least, hleast⟩ := hread layout (List.mem_of_getElem? hlayout) hfits body hbody
      refine ⟨least, fun more hmore rest => ?_⟩
      have hplace := place?_natCast (List.getElem?_eq_some_iff.mp hlayout).1
      rw [readDatum, List.append_assoc, readInt_writeInt]
      simp only [hplace, readMember_eq hlayout]
      exact hleast more hmore rest

/-- A union, when a datum fits no member but null or is stable there. -/
theorem stable_union {members : List Layout} (hdatum : datum ≠ .null) (hstored : stored ≠ .null)
    (hsize : stored.nodeCount = datum.nodeCount)
    (h : ∀ layout ∈ members, layout = .primitive .null none ∨ Stable types layout datum stored) :
    Stable types (.union members) datum stored := by
  have hfits (fuel : Nat) (layout : Layout) (hlayout : layout ∈ members) :
      fits types fuel layout stored = fits types fuel layout datum := by
    obtain rfl | hstable := h layout hlayout
    · rw [not_fits_null _ _ hstored, not_fits_null _ _ hdatum]
    · exact hstable.fits fuel
  have hsome (fuel : Nat) : fitsSome types fuel members stored = fitsSome types fuel members datum := by
    clear h
    induction members with
    | nil => rw [fitsSome, fitsSome]
    | cons member members ih =>
      rw [fitsSome, fitsSome, hfits fuel member List.mem_cons_self,
        ih fun fuel layout hlayout => hfits fuel layout (List.mem_cons_of_mem _ hlayout)]
  have hmember (fuel : Nat) :
      memberFor? types fuel stored members = memberFor? types fuel datum members := by
    clear h hsome
    induction members with
    | nil => rfl
    | cons member members ih =>
      rw [memberFor?, memberFor?, hfits fuel member List.mem_cons_self,
        ih fun fuel layout hlayout => hfits fuel layout (List.mem_cons_of_mem _ hlayout)]
  refine ⟨fun fuel => ?_, fun fuel => ?_, hsize, fun fuel bytes hwrite => ?_⟩
  · rw [Binary.fits, Binary.fits]
    exact hsome fuel
  · rw [writeDatum, writeDatum, hmember]
    cases hfound : memberFor? types fuel datum members with
    | error e => rfl
    | ok found =>
      cases found with
      | none => rfl
      | some i =>
        obtain ⟨layout, hlayout, hfit⟩ := memberFor?_some hfound
        obtain rfl | hstable := h layout (List.mem_of_getElem? hlayout)
        · rw [not_fits_null _ _ hdatum] at hfit
          cases hfit
        · simp only [writeMember_eq hlayout, hstable.written]
  · refine read_union hwrite fun layout hlayout hfit body hbody => ?_
    obtain rfl | hstable := h layout hlayout
    · rw [not_fits_null _ _ hdatum] at hfit
      cases hfit
    · exact hstable.read fuel body hbody

/-- Null in a union, of which no member takes it but null. -/
theorem stable_absent {members : List Layout}
    (h : ∀ layout ∈ members, layout = .primitive .null none ∨
      ∀ fuel, fits types fuel layout .null = .ok false) :
    Stable types (.union members) .null .null where
  fits _ := rfl
  written _ := rfl
  size := rfl
  read fuel bytes hwrite := by
    refine read_union hwrite fun layout hlayout hfit body hbody => ?_
    obtain rfl | hnot := h layout hlayout
    · exact stable_null.read fuel body hbody
    · rw [hnot] at hfit
      cases hfit

/-! ## Arrays and records -/

section inside

variable {α : Type} {as : List α}

theorem exists_least {P : α → Nat → Prop}
    (h : ∀ a ∈ as, ∃ least, ∀ more, least ≤ more → P a more) :
    ∃ least, ∀ more, least ≤ more → ∀ a ∈ as, P a more := by
  induction as with
  | nil => exact ⟨0, fun _ _ _ ha => nomatch ha⟩
  | cons a as ih =>
    obtain ⟨first, hfirst⟩ := h a List.mem_cons_self
    obtain ⟨others, hothers⟩ := ih fun b hb => h b (List.mem_cons_of_mem _ hb)
    refine ⟨max first others, fun more hmore b hb => ?_⟩
    obtain rfl | hb := List.mem_cons.mp hb
    · exact hfirst more (Nat.le_trans (Nat.le_max_left _ _) hmore)
    · exact hothers more (Nat.le_trans (Nat.le_max_right _ _) hmore) b hb

/-- Bytes one behind the other, up to the first failure. -/
def joined : List (Except WriteFault (List UInt8)) → Except WriteFault (List UInt8)
  | [] => .ok []
  | .error e :: _ => .error e
  | .ok bytes :: results => (joined results).map (bytes ++ ·)

theorem joined_ok {write : α → Except WriteFault (List UInt8)} {body : List UInt8}
    (h : joined (as.map write) = .ok body) :
    ∃ part : α → List UInt8, body = as.flatMap part ∧ ∀ a ∈ as, write a = .ok (part a) := by
  refine ⟨fun a => (write a).toOption.getD [], ?_⟩
  induction as generalizing body with
  | nil =>
    cases h
    exact ⟨rfl, fun _ ha => nomatch ha⟩
  | cons a as ih =>
    rw [List.map_cons] at h
    cases hfirst : write a with
    | error e =>
      rw [hfirst] at h
      cases h
    | ok first =>
      rw [hfirst, joined] at h
      cases hrest : joined (as.map write) with
      | error e =>
        rw [hrest] at h
        cases h
      | ok rest =>
        rw [hrest] at h
        cases h
        obtain ⟨hbody, hall⟩ := ih hrest
        refine ⟨by rw [List.flatMap_cons, hfirst, ← hbody]; rfl, fun b hb => ?_⟩
        obtain rfl | hb := List.mem_cons.mp hb
        · simp only [hfirst]
          rfl
        · exact hall b hb

/-- Whether everything fits, up to the first that does not. -/
def allFit : List (Except WriteFault Bool) → Except WriteFault Bool
  | [] => .ok true
  | .error e :: _ => .error e
  | .ok false :: _ => .ok false
  | .ok true :: results => allFit results

section items

variable {datum stored : α → Value}

theorem fitsItems_eq (fuel : Nat) :
    fitsItems types fuel layout (as.map datum) =
      allFit (as.map fun a => fits types fuel layout (datum a)) := by
  induction as with
  | nil => rw [List.map_nil, fitsItems]; rfl
  | cons a as ih =>
    rw [List.map_cons, List.map_cons, fitsItems]
    rcases fits types fuel layout (datum a) with e | (_ | _)
    · rfl
    · rfl
    · exact ih

theorem writeItems_eq (fuel : Nat) :
    writeItems types fuel layout (as.map datum) =
      joined (as.map fun a => writeDatum types fuel layout (datum a)) := by
  induction as with
  | nil => rw [List.map_nil, writeItems]; rfl
  | cons a as ih =>
    rw [List.map_cons, List.map_cons, writeItems]
    cases writeDatum types fuel layout (datum a) with
    | error e => rfl
    | ok bytes =>
      simp only [ih]
      rfl

theorem stable_array (h : ∀ a ∈ as, Stable types layout (datum a) (stored a)) :
    Stable types (.array layout) (.list (as.map datum)) (.list (as.map stored)) where
  fits fuel := by
    rw [Binary.fits, Binary.fits]
    simp only [Value.items?]
    rw [fitsItems_eq, fitsItems_eq, List.map_congr_left fun a ha => (h a ha).fits fuel]
  written fuel := by
    rw [writeDatum, writeDatum]
    simp only [Value.items?, List.length_map]
    rw [writeItems_eq, writeItems_eq, List.map_congr_left fun a ha => (h a ha).written fuel]
  size := by
    rw [Value.nodeCount, Value.nodeCount]
    congr 1
    induction as with
    | nil => rfl
    | cons a as ih =>
      rw [List.map_cons, List.map_cons, Value.itemCount, Value.itemCount,
        (h a List.mem_cons_self).size, ih fun b hb => h b (List.mem_cons_of_mem _ hb)]
  read fuel bytes hwrite := by
    rw [writeDatum] at hwrite
    simp only [Value.items?] at hwrite
    cases hitems : writeItems types fuel layout (as.map datum) with
    | error e =>
      rw [hitems] at hwrite
      cases hwrite
    | ok body =>
      rw [hitems, List.length_map] at hwrite
      cases hwrite
      rw [writeItems_eq] at hitems
      obtain ⟨part, rfl, hpart⟩ := joined_ok hitems
      obtain ⟨least, hleast⟩ := exists_least fun a ha => (h a ha).read fuel (part a) (hpart a ha)
      refine ⟨least + 1, fun more hmore rest => ?_⟩
      obtain ⟨more, rfl⟩ : ∃ n, more = n + 1 := ⟨more - 1, by omega⟩
      exact read_array (hleast more (Nat.le_of_succ_le_succ hmore)) rest

end items

section fields

variable {label : α → String} {default : α → Option Json} {inner : α → Layout}
  {datum stored : α → Value} {es : List (Key × Value)}

theorem fitsFields_eq (hes : ∀ a ∈ as, Value.member? (label a) es = some (datum a)) (fuel : Nat) :
    fitsFields types fuel (fieldsFor label default inner as) es =
      allFit (as.map fun a => fits types fuel (inner a) (datum a)) := by
  unfold fieldsFor
  induction as with
  | nil => rw [List.map_nil, fitsFields]; rfl
  | cons a as ih =>
    rw [List.map_cons, List.map_cons, fitsFields, fieldValue_own (hes a List.mem_cons_self)]
    rcases fits types fuel (inner a) (datum a) with e | (_ | _)
    · rfl
    · rfl
    · exact ih fun b hb => hes b (List.mem_cons_of_mem _ hb)

theorem writeFields_joined (fields : List (String × Option Json × Layout))
    (fuel : Nat) (es : List (Key × Value)) :
    writeFields types fuel fields es =
      joined (fields.map fun f => writeDatum types fuel f.2.2 (fieldValue es f.1 f.2.1)) := by
  induction fields with
  | nil =>
    rw [writeFields]
    rfl
  | cons f fields ih =>
    obtain ⟨name, default, layout⟩ := f
    rw [writeFields, List.map_cons]
    cases writeDatum types fuel layout (fieldValue es name default) with
    | error e => rfl
    | ok bytes =>
      simp only [ih]
      rfl

theorem writeFields_eq (hes : ∀ a ∈ as, Value.member? (label a) es = some (datum a)) (fuel : Nat) :
    writeFields types fuel (fieldsFor label default inner as) es =
      joined (as.map fun a => writeDatum types fuel (inner a) (datum a)) := by
  rw [writeFields_joined, fieldsFor, List.map_map]
  refine congrArg joined (List.map_congr_left fun a ha => ?_)
  show writeDatum types fuel (inner a) (fieldValue es (label a) (default a)) = _
  rw [fieldValue_own (hes a ha)]

theorem writeRecord_eq (name : String)
    (hes : ∀ a ∈ as, Value.member? (label a) es = some (datum a)) (fuel : Nat) :
    writeDatum types fuel (.record name (fieldsFor label default inner as)) (.struct es) =
      joined (as.map fun a => writeDatum types fuel (inner a) (datum a)) := by
  rw [← writeFields_eq hes]
  generalize fieldsFor label default inner as = fields
  cases fields with
  | nil => rw [writeDatum, writeFields]
  | cons field fields =>
    rw [writeDatum]
    exact List.cons_ne_nil _ _

theorem stable_record (name : String) (hn : (as.map label).Nodup)
    (h : ∀ a ∈ as, Stable types (inner a) (datum a) (stored a)) :
    Stable types (.record name (fieldsFor label default inner as))
      (.struct (entriesFor label datum as)) (.struct (entriesFor label stored as)) := by
  have hdatum : ∀ a ∈ as, Value.member? (label a) (entriesFor label datum as) = some (datum a) :=
    fun a ha => member?_entriesFor hn ha
  have hstored : ∀ a ∈ as, Value.member? (label a) (entriesFor label stored as) = some (stored a) :=
    fun a ha => member?_entriesFor hn ha
  refine ⟨fun fuel => ?_, fun fuel => ?_, ?_, fun fuel bytes hwrite => ?_⟩
  · rw [Binary.fits, Binary.fits]
    rw [fitsFields_eq hdatum, fitsFields_eq hstored,
      List.map_congr_left fun a ha => (h a ha).fits fuel]
  · rw [writeRecord_eq name hdatum, writeRecord_eq name hstored,
      List.map_congr_left fun a ha => (h a ha).written fuel]
  · rw [Value.nodeCount, Value.nodeCount]
    unfold entriesFor
    congr 1
    clear hn hdatum hstored
    induction as with
    | nil => rfl
    | cons a as ih =>
      rw [List.map_cons, List.map_cons, Value.entryCount, Value.entryCount,
        (h a List.mem_cons_self).size, ih fun b hb => h b (List.mem_cons_of_mem _ hb)]
  · rw [writeRecord_eq name hdatum] at hwrite
    obtain ⟨part, rfl, hpart⟩ := joined_ok hwrite
    obtain ⟨least, hleast⟩ := exists_least fun a ha => (h a ha).read fuel (part a) (hpart a ha)
    exact ⟨least, fun more hmore rest => read_record name hn (hleast more hmore) rest⟩

end fields

end inside

end stable

end Binary
end AvroDocument
