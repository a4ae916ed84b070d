import AvroDocument.Inference.Widening

/-!
# AvroDocument.Inference.Shape

What documents look like, position by position.

A position is the path of keys that leads to it, in which the items of a list all share one step.
Looking at a document leaves a trace of sightings; the arena counts them, with one shape for each
position in the order of first observation.

* `Trace.ofValue`: the sightings inside a value, up to the first thing that cannot be classified.
* `Arena.record`: counts a sighting.
* `Accumulator.add`: counts a whole document. One that fails part of the way leaves its earlier
  sightings behind.
-/

namespace AvroDocument
namespace Inference

/-- A step of a position: to the value under a key, or to any item of a list. -/
inductive Step where
  | key (k : String)
  | items
deriving DecidableEq

abbrev Position := List Step

/-- What was seen at a position. -/
structure Shape where
  occurrences : Nat := 0
  nulls : Nat := 0
  scalar : Option Json := none
  structs : Nat := 0
  /-- For each key the number of structs that carry it. -/
  fields : List (String × Nat) := []
  lists : Nat := 0
  items : Nat := 0

namespace Shape

/-- The number of categories (scalar, record, array) among the values seen. -/
def categories (s : Shape) : Nat :=
  (if s.scalar.isSome then 1 else 0) + (if 0 < s.structs then 1 else 0) +
    (if 0 < s.lists then 1 else 0)

end Shape

/-- A single observation. -/
inductive Sighting where
  | occurrence
  | null
  | struct
  | field (key : String)
  | list
  | item
  | scalar (type : Json)

def Shape.see (s : Shape) : Sighting → Shape
  | .occurrence => { s with occurrences := s.occurrences + 1 }
  | .null => { s with nulls := s.nulls + 1 }
  | .struct => { s with structs := s.structs + 1 }
  | .field key =>
    { s with fields := assign key ((lookup? key s.fields).getD 0 + 1) s.fields }
  | .list => { s with lists := s.lists + 1 }
  | .item => { s with items := s.items + 1 }
  | .scalar type =>
    match s.scalar with
    | none => { s with scalar := some type }
    | some seen => { s with scalar := some (widen seen type) }

/-- The shapes of positions. -/
abbrev Arena := List (Position × Shape)

namespace Arena

def get? (position : Position) : Arena → Option Shape
  | [] => none
  | (p, s) :: rest => if p = position then some s else get? position rest

/-- Counts a sighting; a position that was not seen before comes last. -/
def record (position : Position) (sighting : Sighting) : Arena → Arena
  | [] => [(position, Shape.see {} sighting)]
  | (p, s) :: rest =>
    if p = position then (p, s.see sighting) :: rest else (p, s) :: record position sighting rest

def recordAll (arena : Arena) (sightings : List (Position × Sighting)) : Arena :=
  sightings.foldl (fun a (p, s) => a.record p s) arena

end Arena

/-- Why a value inside a document is not classified, and where it is. -/
inductive Obstacle where
  | unsupportedValue (path typeName : String)
  | badKey (path typeName : String)

/-- The sightings of a walk, and what ended it early. -/
structure Trace where
  sightings : List (Position × Sighting)
  obstacle : Option Obstacle := none

namespace Trace

/-- One walk after the other; the second one takes place only when the first was not ended. -/
def andThen (first : Trace) (second : Trace) : Trace :=
  match first.obstacle with
  | some _ => first
  | none => ⟨first.sightings ++ second.sightings, second.obstacle⟩

mutual

/-- The walk through the value at a position. -/
def ofValue (position : Position) (path : String) : Value → Trace
  | .null => ⟨[(position, .occurrence), (position, .null)], none⟩
  | .struct entries =>
    andThen ⟨[(position, .occurrence), (position, .struct)], none⟩
      (ofEntries position path entries)
  | .list vs =>
    andThen ⟨[(position, .occurrence), (position, .list)], none⟩ (ofItems position path 0 vs)
  | .tuple vs =>
    andThen ⟨[(position, .occurrence), (position, .list)], none⟩ (ofItems position path 0 vs)
  | v =>
    match scalarType? v with
    | some type => ⟨[(position, .occurrence), (position, .scalar type)], none⟩
    | none => ⟨[(position, .occurrence)], some (.unsupportedValue path v.typeName)⟩

/-- The walk through the items of a list from an index on. -/
def ofItems (position : Position) (path : String) (index : Nat) : List Value → Trace
  | [] => ⟨[], none⟩
  | v :: vs =>
    andThen ⟨[(position, .item)], none⟩
      (andThen (ofValue (position ++ [.items]) (Pointer.item path index) v)
        (ofItems position path (index + 1) vs))

/-- The walk through the entries of a struct. -/
def ofEntries (position : Position) (path : String) : List (Key × Value) → Trace
  | [] => ⟨[], none⟩
  | (.text key, v) :: entries =>
    andThen ⟨[(position, .field key)], none⟩
      (andThen (ofValue (position ++ [.key key]) (Pointer.child path key) v)
        (ofEntries position path entries))
  | (key, _) :: _ => ⟨[], some (.badKey path key.typeName)⟩

end

end Trace

/-- The shapes of the documents seen so far, and their number. -/
structure Accumulator where
  arena : Arena := []
  documents : Nat := 0

namespace Accumulator

/-- The failure of an obstacle in the document with a number. -/
def obstacleFailure (document : Nat) : Obstacle → Failure
  | .unsupportedValue path typeName => .inference path (.unsupportedValue document typeName)
  | .badKey path typeName => .inference path (.badKey document typeName)

/-- Counts a document; `none` stands for success. -/
def add (a : Accumulator) (document : Value) : Accumulator × Option Failure :=
  match document.kind? with
  | none =>
    (a, some (.inference Pointer.root (.unsupportedValue a.documents document.typeName)))
  | some .struct =>
    let trace := Trace.ofValue [] Pointer.root document
    let arena := a.arena.recordAll trace.sightings
    match trace.obstacle with
    | some obstacle => ({ a with arena := arena }, some (obstacleFailure a.documents obstacle))
    | none => (⟨arena, a.documents + 1⟩, none)
  | some kind => (a, some (.inference Pointer.root (.notARecord a.documents kind)))

end Accumulator
end Inference
end AvroDocument
