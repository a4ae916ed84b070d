import AvroDocument.Proofs.Bookkeeping
import Mathlib

/-!
# AvroDocument.Proofs.Leftovers

What refused documents leave in an accumulator.

* `Accumulator.walk`: what of a document is counted, whether it is taken or refused.
* `Accumulator.addEach_eq`: a run counts the walks of all documents and the number of those it takes.
* `Accumulator.addEach_refused`: a refused document changes neither what becomes of the others nor
  whether there is a schema; it leaves its walk, which is empty only when it was refused at the top.
-/

namespace AvroDocument
namespace Inference

open Sighting (isOccurrence)

namespace Accumulator

/-- What of a document is counted: the walk through it, as far as it went. Only structs are walked. -/
def walk (document : Value) : List (Position × Sighting) :=
  if document.kind? = some .struct then (Trace.ofValue [] Pointer.root document).sightings else []

/-- The failure of the document with a number, if it is refused. -/
def refusal? (number : Nat) (document : Value) : Option Failure :=
  match document.kind? with
  | none => some (.inference Pointer.root (.unsupportedValue number document.typeName))
  | some .struct =>
    (Trace.ofValue [] Pointer.root document).obstacle.map (obstacleFailure number)
  | some kind => some (.inference Pointer.root (.notARecord number kind))

/-- Whether a document is taken. -/
def takes (document : Value) : Bool := (refusal? 0 document).isNone

variable {document : Value}

theorem add_eq (a : Accumulator) (document : Value) :
    a.add document =
      (⟨a.arena.recordAll (walk document), a.documents + if takes document then 1 else 0⟩,
        refusal? a.documents document) := by
  unfold takes refusal? walk add
  cases document.kind? with
  | none => rfl
  | some kind =>
    cases kind with
    | struct => cases h : (Trace.ofValue [] Pointer.root document).obstacle <;> simp [h]
    | _ => rfl

theorem refusal?_isNone (number : Nat) (document : Value) :
    (refusal? number document).isNone = takes document := by
  unfold takes refusal?
  cases document.kind? with
  | none => rfl
  | some kind =>
    cases kind with
    | struct => simp
    | _ => rfl

/-- The failures of documents, of which those that are taken are numbered from a number on. -/
def refusals (number : Nat) : List Value → List (Option Failure)
  | [] => []
  | document :: documents =>
    refusal? number document ::
      refusals (number + if takes document then 1 else 0) documents

/-- A run counts the walks of all documents and the number of those it takes. -/
theorem addEach_eq (a : Accumulator) (documents : List Value) :
    a.addEach documents =
      (⟨a.arena.recordAll (documents.flatMap walk), a.documents + documents.countP takes⟩,
        refusals a.documents documents) := by
  induction documents generalizing a with
  | nil => rfl
  | cons document documents ih =>
    rw [addEach, add_eq]
    simp only [ih, List.flatMap_cons, List.countP_cons, refusals, Arena.recordAll,
      List.foldl_append]
    congr 2
    omega

theorem length_refusals (number : Nat) (documents : List Value) :
    (refusals number documents).length = documents.length := by
  induction documents generalizing number with
  | nil => rfl
  | cons document documents ih => rw [refusals, List.length_cons, ih, List.length_cons]

theorem refusals_append (number : Nat) (before after : List Value) :
    refusals number (before ++ after) =
      refusals number before ++ refusals (number + before.countP takes) after := by
  induction before generalizing number with
  | nil => rfl
  | cons document before ih =>
    rw [List.cons_append, refusals, ih, refusals, List.countP_cons, List.cons_append,
      Nat.add_assoc, Nat.add_comm (before.countP takes)]

/-! ## The root -/

theorem kind_of_takes (h : takes document = true) : document.kind? = some .struct := by
  unfold takes refusal? at h
  cases hkind : document.kind? with
  | none =>
    rw [hkind] at h
    cases h
  | some kind =>
    cases kind with
    | struct => rfl
    | _ =>
      rw [hkind] at h
      cases h

/-- The walk through a struct sees it at the root. -/
theorem times_walk_pos (h : document.kind? = some .struct) :
    0 < times isOccurrence [] (walk document) := by
  rw [walk, if_pos h]
  cases document with
  | struct es =>
    rw [Trace.ofValue, Trace.sightings_andThen rfl]
    simp only [List.cons_append, times_cons, isOccurrence, and_self, if_true]
    omega
  | int n => exact absurd h (by rw [Value.kind?]; split <;> simp)
  | _ => cases h

theorem times_flatMap_pos {documents : List Value} (h : 0 < documents.countP takes) :
    0 < times isOccurrence [] (documents.flatMap walk) := by
  obtain ⟨document, hmem, htakes⟩ := List.countP_pos_iff.mp h
  obtain ⟨before, after, rfl⟩ := List.append_of_mem hmem
  have hpos := times_walk_pos (kind_of_takes htakes)
  rw [List.flatMap_append, List.flatMap_cons, times_append, times_append]
  omega

/-- The sightings of the root, as an arena counts them. -/
theorem root_occurrences (l : List (Position × Sighting)) :
    ((Arena.recordAll [] l).get? []).elim 0 (·.occurrences) = times isOccurrence [] l := by
  cases hget : (Arena.recordAll [] l).get? [] with
  | some shape => exact (shape_parts hget).1
  | none =>
    have hnone : sightingsAt [] l = [] := by
      rw [get?_recordAll] at hget
      by_contra hseen
      rw [if_neg hseen] at hget
      cases hget
    rw [times, hnone]
    rfl

/-- There is no schema when no document was taken, and otherwise there is one. -/
theorem schema_error_iff {documents : List Value} {typeName namespaceName altNamesKey : String}
    {f : Failure} :
    (addEach {} documents).1.schema typeName namespaceName altNamesKey = .error f ↔
      documents.countP takes = 0 ∧ f = .inference Pointer.root .emptyInput := by
  have hroot : 0 < documents.countP takes →
      ((Arena.recordAll [] (documents.flatMap walk)).get? []).isNone = false := by
    intro htaken
    have hpos := times_flatMap_pos htaken
    rw [← root_occurrences] at hpos
    cases hget : (Arena.recordAll [] (documents.flatMap walk)).get? [] with
    | some shape => rfl
    | none =>
      rw [hget] at hpos
      cases hpos
  rw [addEach_eq]
  unfold schema
  simp only [Nat.zero_add]
  obtain hnone | htaken := Nat.eq_zero_or_pos (documents.countP takes)
  · simp only [hnone, decide_true, Bool.true_or, if_true, Except.error.injEq, true_and]
    exact eq_comm
  · have hne : List.countP takes documents ≠ 0 := Nat.ne_of_gt htaken
    simp only [hroot htaken, hne, decide_false, Bool.or_false, Bool.false_eq_true, if_false,
      reduceCtorEq, false_and]

/-! ## Refused documents -/

/-- The walk through a document leaves an arena as it would be without it only when there is none. -/
theorem recordAll_walk_iff {before after : List (Position × Sighting)} :
    Arena.recordAll [] (before ++ walk document ++ after) = Arena.recordAll [] (before ++ after) ↔
      document.kind? ≠ some .struct := by
  constructor
  · intro hsame hstruct
    have hroot := root_occurrences (before ++ walk document ++ after)
    have hpos := times_walk_pos hstruct
    rw [hsame, root_occurrences, times_append, times_append, times_append] at hroot
    omega
  · intro htop
    have hwalk : walk document = [] := if_neg htop
    rw [hwalk, List.append_nil]

/-- A refused document changes neither what becomes of the others, nor their number, nor whether there
is a schema. What it leaves is its walk, which is empty only when it was refused at the top. -/
theorem addEach_refused {before after : List Value} {f : Failure}
    (h : ((addEach {} before).1.add document).2 = some f) :
    let run := addEach {} (before ++ document :: after)
    let kept := addEach {} (before ++ after)
    run.2[before.length]? = some (some f) ∧ run.2.eraseIdx before.length = kept.2 ∧
      run.1.documents = kept.1.documents ∧
      (∀ typeName namespaceName altNamesKey failure,
        run.1.schema typeName namespaceName altNamesKey = .error failure ↔
          kept.1.schema typeName namespaceName altNamesKey = .error failure) ∧
      run.1.arena = Arena.recordAll []
        (before.flatMap walk ++ walk document ++ after.flatMap walk) ∧
      kept.1.arena = Arena.recordAll [] (before.flatMap walk ++ after.flatMap walk) ∧
      (run.1 = kept.1 ↔ document.kind? ≠ some .struct) := by
  intro run kept
  have hrefusal : refusal? (before.countP takes) document = some f := by
    rw [addEach_eq, add_eq] at h
    simpa using h
  have hrefused : takes document = false := by
    rw [← refusal?_isNone (before.countP takes), hrefusal]
    rfl
  have hcount : (before ++ document :: after).countP takes = (before ++ after).countP takes := by
    rw [List.countP_append, List.countP_append, List.countP_cons_of_neg (by simp [hrefused])]
  have houtcomes : run.2 = refusals 0 before ++ some f ::
      refusals (before.countP takes) after := by
    show (addEach {} _).2 = _
    rw [addEach_eq]
    simp only [refusals_append, refusals, Nat.zero_add, hrefusal, hrefused, Bool.false_eq_true,
      if_false, Nat.add_zero]
  have hkept : kept.2 = refusals 0 before ++ refusals (before.countP takes) after := by
    show (addEach {} _).2 = _
    rw [addEach_eq]
    simp only [refusals_append, Nat.zero_add]
  have harena : run.1.arena = Arena.recordAll []
      (before.flatMap walk ++ walk document ++ after.flatMap walk) := by
    show (addEach {} _).1.arena = _
    rw [addEach_eq]
    simp only [List.flatMap_append, List.flatMap_cons, List.append_assoc]
  have harena' : kept.1.arena = Arena.recordAll [] (before.flatMap walk ++ after.flatMap walk) := by
    show (addEach {} _).1.arena = _
    rw [addEach_eq, List.flatMap_append]
  have hdocuments : run.1.documents = kept.1.documents := by
    show (addEach {} _).1.documents = (addEach {} _).1.documents
    rw [addEach_eq, addEach_eq]
    simp only [hcount]
  have hlength := length_refusals 0 before
  refine ⟨?_, ?_, hdocuments, fun typeName namespaceName altNamesKey failure => ?_, harena, harena',
    ?_⟩
  · rw [houtcomes, ← hlength, List.getElem?_append_right (Nat.le_refl _), Nat.sub_self]
    rfl
  · rw [houtcomes, hkept, ← hlength, List.eraseIdx_append_of_length_le (Nat.le_refl _),
      Nat.sub_self]
    rfl
  · rw [schema_error_iff, schema_error_iff, hcount]
  · rw [← recordAll_walk_iff, ← harena, ← harena']
    cases hrun : run.1
    cases hkeep : kept.1
    rw [hrun, hkeep] at hdocuments
    simp only at hdocuments
    simp only [Accumulator.mk.injEq, hdocuments, and_true]

/-- A document that is refused at its second field leaves both of its fields in the schema, and the field
of the only document that was taken may be null. -/
theorem schema_leftover :
    let taken : Value := .struct [(.text "a", .int 1)]
    let refused : Value := .struct [(.text "b", .int 1), (.text "c", .set [])]
    let nullable (name : String) (type : Json) : Json :=
      .obj [("name", .str name), ("type", type), ("default", .null)]
    let record (fields : List Json) : Json :=
      .obj [("type", .str "record"), ("name", .str "Document"), ("fields", .arr fields)]
    let long : Json := .arr [.str "null", .str "long"]
    ((addEach {} [taken]).1.add refused).2 =
        some (.inference "#/c" (.unsupportedValue 1 "set")) ∧
      (addEach {} [taken]).1.schema "Document" "" "json" =
        .ok (record [.obj [("name", .str "a"), ("type", .str "long")]]) ∧
      (addEach {} [taken, refused]).1.schema "Document" "" "json" =
        .ok (record [nullable "a" long, nullable "b" long, nullable "c" (.str "null")]) := by
  intro taken refused nullable record long
  refine ⟨?_, ?_, ?_⟩ <;> cbv

end Accumulator
end Inference
end AvroDocument
