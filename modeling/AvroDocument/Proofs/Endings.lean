import AvroDocument.Proofs.Comparison
import AvroDocument.Proofs.SchemaWalks
import Mathlib.Data.List.ProdSigma

/-!
# AvroDocument.Proofs.Endings

The comparison of two schemas as the recursion that it is, and the ends of all walks over schemas.

* `Compatibility.pairWalk`: the comparison of a pair of types, with calls that are nested to a depth.
* `Compatibility.room`: the fuel and the depth that the comparison of a pair takes, by the pairs of full
  names that are left.
* `Compatibility.pairs_halt`: with room, the comparison comes to the result of the one that has fuel.
* `schemaWalks_end`: the check of a schema, its normal form and the comparison of two schemas end.
-/

namespace AvroDocument

namespace Schema

variable {outer enclosing inner : String} {schema node found : Json}

/-- What a node stands for: a record is a declaration, an array stands for itself. -/
theorem Stands.resolved (h : Stands outer schema enclosing node)
    (hresolve : (Registry.ofSchema schema).resolve node enclosing = .ok (found, inner)) :
    Stands outer schema inner found ∧ (typeName found = "record" → isNamed found = true) ∧
      (typeName found = "array" → found = node ∧ ∃ ms, found = .obj ms) := by
  cases node with
  | str name =>
    by_cases hname : primitiveNames.contains name = true
    · simp only [Registry.resolve, hname, if_true] at hresolve
      cases hresolve
      refine ⟨h, fun hkind => ?_, fun hkind => ?_⟩
      all_goals
        rw [show name = _ from hkind] at hname
        cases hname
    · obtain ⟨hnamed, -, hs⟩ := h.referred (Bool.eq_false_iff.mpr hname) hresolve
      exact ⟨hs, fun _ => hnamed, fun hkind => absurd hnamed (by rw [isNamed_array hkind]; decide)⟩
  | obj ms =>
    cases hresolve
    refine ⟨?_, isNamed_record, fun _ => ⟨rfl, ms, rfl⟩⟩
    split
    · rename_i hnamed
      exact h.inside hnamed
    · exact h
  | _ =>
    cases hresolve
    refine ⟨h, fun hkind => ?_, fun hkind => ?_⟩
    all_goals simp [typeName, typeNode, Json.text?] at hkind

end Schema

namespace Compatibility

open Schema (Registry Stands fullNames)

/-! ## The comparison -/

/-- Compares the fields of a reader with those that are written, by comparisons of their types. -/
def takenWalk (walk : String → List (String × String) → Pair →
      Option (Except Failure (List (String × String))))
    (path : String) (written : List Json) (writerNamespace readerNamespace : String)
    (matched : List String) (visited : List (String × String)) :
    List Json → Option (Except Failure (List (String × String) × List String))
  | [] => some (.ok (visited, matched))
  | field :: rest =>
    if !field.has "name" then some (.error (.missingKey "name"))
    else
      let name := Schema.nameOf field
      let below := Pointer.child path name
      match sourceOf? written field with
      | none =>
        if !Schema.isNullable (Schema.typeOf field) && !field.has "default" then
          some (disagree below ((field.get? "type").getD .null) (.unwrittenField name))
        else takenWalk walk path written writerNamespace readerNamespace matched visited rest
      | some source => do
        match ← walk below visited
            ⟨Schema.typeOf source, Schema.typeOf field, writerNamespace, readerNamespace⟩ with
        | .error e => some (.error e)
        | .ok visited =>
          takenWalk walk path written writerNamespace readerNamespace
            (Schema.nameOf source :: matched) visited rest

/-- Compares a pair of types by calls that are nested to a depth; `visited` holds the pairs of records
that were entered, by their full names. -/
def pairWalk (writers readers : Registry) : Nat → String → List (String × String) → Pair →
    Option (Except Failure (List (String × String)))
  | 0, _, _, _ => none
  | depth + 1, path, visited, pair =>
    if Schema.isNullable pair.writer && !Schema.isNullable pair.reader then
      some (disagree path pair.reader .mayBeNull)
    else
      let writer := Schema.nonNull pair.writer
      let reader := Schema.nonNull pair.reader
      if writer.isStr "null" then some (.ok visited)
      else
        match writers.resolve writer pair.writerNamespace with
        | .error e => some (.error e)
        | .ok (writer, writerNamespace) =>
          match readers.resolve reader pair.readerNamespace with
          | .error e => some (.error e)
          | .ok (reader, readerNamespace) =>
            let kind := Schema.typeName writer
            if Schema.opaqueKinds.contains kind then
              some (disagree path reader (.unknownType kind))
            else if !(Schema.typeNode writer).same (Schema.typeNode reader) ||
                !((Schema.logicalNode? writer).getD .null).same
                  ((Schema.logicalNode? reader).getD .null) then
              some (disagree path reader (.wrongType writer))
            else if kind = "array" then
              pairWalk writers readers depth (path ++ "/items") visited
                ⟨Schema.itemsOf writer, Schema.itemsOf reader, writerNamespace, readerNamespace⟩
            else if kind = "record" then
              let names :=
                (Schema.fullName writer writerNamespace, Schema.fullName reader readerNamespace)
              if visited.contains names then some (.ok visited)
              else
                let written := Schema.fieldsOf writer
                if written.any fun f => !f.has "name" then some (.error (.missingKey "name"))
                else do
                  match ← takenWalk (pairWalk writers readers depth) path written writerNamespace
                      readerNamespace [] (names :: visited) (Schema.fieldsOf reader) with
                  | .error e => some (.error e)
                  | .ok (visited, matched) =>
                    some ((checkTaken path reader written matched (distinctNames written)).map
                      fun _ => visited)
            else some (.ok visited)

/-- Checks that data written with one schema can be read as another, by calls that are nested to a
depth. -/
def compatibleNested (writer reader : Json) (depth : Nat) : Option (Except Failure Unit) :=
  Except.map (fun _ => ()) <$> pairWalk (Registry.ofSchema writer) (Registry.ofSchema reader) depth
    Pointer.root [] ⟨writer, reader, "", ""⟩

section compared

variable {writers readers : Registry} {fuel : Nat} {writerNamespace readerNamespace : String}
  {written fields : List Json} {matched : List String} {visited : List (String × String)}

/-- A walk over the fields of two records ends when each comparison of types does, whatever other pairs
were entered. -/
theorem takenWalk_halts (walk : String → List (String × String) → Pair →
      Option (Except Failure (List (String × String))))
    (path : String) (h : ∀ f ∈ fields, ∀ source, sourceOf? written f = some source →
      ∀ path visited', visited ⊆ visited' →
        Halts id visited'
          (walk path visited'
            ⟨Schema.typeOf source, Schema.typeOf f, writerNamespace, readerNamespace⟩)
          (checkPair writers readers fuel path visited'
            ⟨Schema.typeOf source, Schema.typeOf f, writerNamespace, readerNamespace⟩)) :
    Halts (·.1) visited
      (takenWalk walk path written writerNamespace readerNamespace matched visited fields)
      (checkFields writers readers fuel path written writerNamespace readerNamespace matched visited
        fields) := by
  induction fields generalizing visited matched with
  | nil =>
    rw [takenWalk, checkFields]
    exact .ok (visited, matched)
  | cons field rest ih =>
    have hrest {visited' : List (String × String)} (hsub : visited ⊆ visited') (matched : List String) :
        Halts (·.1) visited
          (takenWalk walk path written writerNamespace readerNamespace matched visited' rest)
          (checkFields writers readers fuel path written writerNamespace readerNamespace matched
            visited' rest) :=
      (ih fun f hf source hs path visited'' hsub' =>
        h f (List.mem_cons_of_mem _ hf) source hs path visited''
          (List.Subset.trans hsub hsub')).mono hsub
    rw [takenWalk, checkFields]
    split
    · exact .error _
    simp only
    cases hsource : sourceOf? written field with
    | none =>
      simp only
      split
      · exact .error _
      · exact hrest (List.Subset.refl _) _
    | some source =>
      have hfield := h field List.mem_cons_self source hsource
        (Pointer.child path (Schema.nameOf field)) visited (List.Subset.refl _)
      simp only
      rw [hfield.eq]
      cases hchecked : checkPair writers readers fuel (Pointer.child path (Schema.nameOf field)) visited
          ⟨Schema.typeOf source, Schema.typeOf field, writerNamespace, readerNamespace⟩ with
      | error e => exact .error _
      | ok visited' => exact hrest (hfield.keeps visited' hchecked) _

/-- What was entered is handed on when all that is written is taken. -/
theorem halts_taken {visited' : List (String × String)} (hsub : visited ⊆ visited')
    (taken : Except Failure Unit) :
    Halts id visited (some (taken.map fun _ => visited')) (taken.map fun _ => visited') := by
  cases taken with
  | error e => exact .error e
  | ok u => exact (Halts.ok visited').mono hsub

end compared

section standing

variable {writer reader : Json} {fuel depth : Nat} {visited : List (String × String)} {p q : Pair}

/-- A pair of types that stand in two schemas, or are left out in them. -/
structure Standing (writer reader : Json) (p : Pair) : Prop where
  writer : Stands "" writer p.writerNamespace p.writer
  reader : Stands "" reader p.readerNamespace p.reader

/-- The pairs of full names that two schemas have room for. -/
def namePairs (writer reader : Json) : List (String × String) :=
  (fullNames "" writer).product (fullNames "" reader)

theorem length_namePairs (writer reader : Json) : (namePairs writer reader).length ≤
    Registry.depthBound writer * Registry.depthBound reader := by
  have hwriter := Schema.length_fullNames "" writer
  have hreader := Schema.length_fullNames "" reader
  refine Nat.le_trans (Nat.le_of_eq (List.length_product _ _)) ?_
  exact Nat.mul_le_mul (by omega) (by omega)

/-- The items of two arrays that a pair comes down to; those written are smaller than the pair. -/
theorem Standing.items (h : Standing writer reader p)
    (hm : Meets (Registry.ofSchema writer) (Registry.ofSchema reader) p q)
    (hkind : Schema.typeName q.writer = "array") :
    Standing writer reader q.items ∧ q.items.writer.nodeCount < p.writer.nodeCount := by
  obtain ⟨hwriter, -, harray⟩ := h.writer.nonNull.resolved hm.written
  obtain ⟨hreader, -, -⟩ := h.reader.nonNull.resolved hm.read
  refine ⟨⟨hwriter.under "items", hreader.under "items"⟩, ?_⟩
  obtain ⟨hsame, ms, hobj⟩ := harray hkind
  have hle := nodeCount_nonNull p.writer
  rw [← hsame, hobj] at hle
  rw [hobj] at hkind
  show (Schema.itemsOf q.writer).nodeCount < _
  rw [hobj]
  exact Nat.lt_of_lt_of_le (Schema.nodeCount_under (by rw [hkind]; decide) "items") hle

/-- Two records that a pair comes down to: their names are one of the pairs, and their fields stand
in the schemas. -/
theorem Standing.records (h : Standing writer reader p)
    (hm : Meets (Registry.ofSchema writer) (Registry.ofSchema reader) p q) (ha : Alike q)
    (hkind : Schema.typeName q.writer = "record") :
    q.names ∈ namePairs writer reader ∧
      ∀ source ∈ Schema.fieldsOf q.writer, ∀ f ∈ Schema.fieldsOf q.reader,
        Standing writer reader (q.field source f) := by
  obtain ⟨hwriter, hrecord, -⟩ := h.writer.nonNull.resolved hm.written
  obtain ⟨hreader, hrecord', -⟩ := h.reader.nonNull.resolved hm.read
  refine ⟨List.mem_product.mpr ⟨?_, ?_⟩, fun source hs f hf => ⟨hwriter.field hs, hreader.field hf⟩⟩
  · exact hwriter.fullName_mem (hrecord hkind)
  · exact hreader.fullName_mem (hrecord' (ha.readerKind hkind (by decide)))

/-- The fuel and the depth that the comparison of a pair takes: for each pair of full names that was not
entered enough for going down inside what is written. -/
def room (writer reader : Json) (visited : List (String × String)) (p : Pair) : Nat :=
  unseen (namePairs writer reader) visited * (writer.nodeCount + 1) + p.writer.nodeCount

/-- Whether comparisons with some fuel, of pairs that it suffices for, come to their results at a
depth. -/
def PairsHalt (writer reader : Json) (fuel depth : Nat) : Prop :=
  ∀ path visited p, Standing writer reader p → room writer reader visited p ≤ fuel →
    room writer reader visited p ≤ depth →
      Halts id visited
        (pairWalk (Registry.ofSchema writer) (Registry.ofSchema reader) depth path visited p)
        (checkPair (Registry.ofSchema writer) (Registry.ofSchema reader) fuel path visited p)

/-- Entering a new pair of records leaves room for going down inside what is written. -/
theorem Standing.room_lt (h : Standing writer reader q) {names : String × String}
    (hnames : names ∈ namePairs writer reader) (hnew : visited.contains names = false)
    {visited' : List (String × String)} (hsub : names :: visited ⊆ visited') (p : Pair) :
    room writer reader visited' q < room writer reader visited p := by
  have hsmall := h.writer.small
  have hless := Nat.lt_of_le_of_lt (unseen_mono (namePairs writer reader) hsub)
    (unseen_cons hnames hnew)
  have hmul := Nat.mul_le_mul_right (writer.nodeCount + 1) (Nat.succ_le_of_lt hless)
  rw [Nat.succ_mul] at hmul
  rw [room, room]
  omega

theorem room_pos (writer reader : Json) (visited : List (String × String)) (p : Pair) :
    0 < room writer reader visited p := Nat.add_pos_right _ p.writer.nodeCount_pos

/-- The comparison of the fields of two records ends, once these are entered. -/
theorem PairsHalt.records (h : PairsHalt writer reader fuel depth) (path : String)
    (hnames : q.names ∈ namePairs writer reader)
    (hfields : ∀ source ∈ Schema.fieldsOf q.writer, ∀ f ∈ Schema.fieldsOf q.reader,
      Standing writer reader (q.field source f)) (hnew : visited.contains q.names = false)
    (hfuel : room writer reader visited p ≤ fuel + 1)
    (hdepth : room writer reader visited p ≤ depth + 1) :
    Halts (·.1) (q.names :: visited)
      (takenWalk (pairWalk (Registry.ofSchema writer) (Registry.ofSchema reader) depth) path
        (Schema.fieldsOf q.writer) q.writerNamespace q.readerNamespace [] (q.names :: visited)
        (Schema.fieldsOf q.reader))
      (checkFields (Registry.ofSchema writer) (Registry.ofSchema reader) fuel path
        (Schema.fieldsOf q.writer) q.writerNamespace q.readerNamespace [] (q.names :: visited)
        (Schema.fieldsOf q.reader)) := by
  refine takenWalk_halts _ path fun f hf source hsource below visited' hsub => ?_
  have hfield := hfields source (mem_of_sourceOf? hsource) f hf
  have hroom := hfield.room_lt hnames hnew hsub p
  exact h below visited' (q.field source f) hfield (by omega) (by omega)

/-- The comparison of a pair ends: a pair of records is either one that was entered or leaves less
pairs to be entered, and between two pairs of records what is written gets smaller. -/
theorem pairs_halt (fuel depth : Nat) : PairsHalt writer reader fuel depth := by
  induction fuel generalizing depth with
  | zero =>
    intro path visited p _ hfuel
    have hpos := room_pos writer reader visited p
    omega
  | succ fuel ih =>
    intro path visited p hs hfuel hdepth
    have hpos := room_pos writer reader visited p
    obtain ⟨depth, rfl⟩ := Nat.exists_eq_add_one.mpr (show 0 < depth by omega)
    rw [pairWalk, checkPair]
    split
    · exact .error _
    simp only
    split
    · exact .ok visited
    cases hwritten : (Registry.ofSchema writer).resolve (Schema.nonNull p.writer) p.writerNamespace with
    | error e => exact .error _
    | ok written =>
      obtain ⟨w, nw⟩ := written
      cases hread : (Registry.ofSchema reader).resolve (Schema.nonNull p.reader) p.readerNamespace with
      | error e => exact .error _
      | ok read =>
        obtain ⟨r, nr⟩ := read
        have hm : Meets (Registry.ofSchema writer) (Registry.ofSchema reader) p ⟨w, r, nw, nr⟩ :=
          ⟨hwritten, hread⟩
        simp only
        split
        · exact .error _
        rename_i hknown
        split
        · exact .error _
        rename_i hsame
        simp only [Bool.or_eq_true, Bool.not_eq_true', not_or, Bool.not_eq_false] at hsame
        have ha : Alike ⟨w, r, nw, nr⟩ := ⟨by simpa using hknown, hsame.1, hsame.2⟩
        split
        · rename_i harray
          obtain ⟨hitems, hless⟩ := hs.items hm harray
          have hroom : room writer reader visited (Pair.items ⟨w, r, nw, nr⟩) <
              room writer reader visited p := Nat.add_lt_add_left hless _
          exact ih depth _ _ (Pair.items ⟨w, r, nw, nr⟩) hitems (by omega) (by omega)
        split
        · rename_i hrecord
          split
          · exact .ok visited
          rename_i hseen
          split
          · exact .error _
          obtain ⟨hnames, hfields⟩ := hs.records hm ha hrecord
          have hnew := Bool.eq_false_iff.mpr hseen
          have hhalts := (ih depth).records path hnames hfields hnew hfuel hdepth
          simp only [Pair.names] at hhalts
          rw [hhalts.eq]
          cases hchecked : checkFields (Registry.ofSchema writer) (Registry.ofSchema reader) fuel path
              (Schema.fieldsOf w) nw nr [] ((Schema.fullName w nw, Schema.fullName r nr) :: visited)
              (Schema.fieldsOf r) with
          | error e => exact .error _
          | ok result =>
            obtain ⟨visited', matched⟩ := result
            have hsub := List.Subset.trans (List.subset_cons_self _ _) (hhalts.keeps _ hchecked)
            exact halts_taken hsub (checkTaken path r (Schema.fieldsOf w) matched
              (distinctNames (Schema.fieldsOf w)))
        · exact .ok visited

end standing

/-- The comparison of two schemas ends. -/
theorem compatible_returns (writer reader : Json) :
    Returns (compatibleNested writer reader) (checkCompatible writer reader) := by
  refine ⟨room writer reader [] ⟨writer, reader, "", ""⟩, fun depth hdepth => ?_⟩
  have hroom := le_depthBound (Nat.le_trans (unseen_le (namePairs writer reader) [])
    (length_namePairs writer reader))
  have hhalts := pairs_halt _ depth Pointer.root [] ⟨writer, reader, "", ""⟩
    ⟨.whole "" writer, .whole "" reader⟩ hroom hdepth
  rw [compatibleNested, hhalts.eq]
  rfl

end Compatibility

/-- The walks over schemas end. The check of a schema, its normal form in a namespace and the
comparison of two schemas follow references wherever they lead; when their calls may be nested deep
enough, each of them comes to a result or to an error. -/
theorem schemaWalks_end (schema : Json) :
    Returns (Schema.checkNested schema) (Schema.check schema) ∧
      (∀ outer, Returns (Schema.normalNested schema outer) (Schema.normal schema outer)) ∧
      ∀ reader, Returns (Compatibility.compatibleNested schema reader)
        (checkCompatible schema reader) :=
  ⟨Schema.check_returns schema, Schema.normal_returns schema,
    Compatibility.compatible_returns schema⟩

end AvroDocument
