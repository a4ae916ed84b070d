import AvroDocument.Failure

/-!
# AvroDocument.Inference.Widening

The types of scalars, and how the types seen at one place combine.

* `scalarType`: the type that holds a scalar without loss.
* `widen`: two types combined; types that disagree widen to string.
-/

namespace AvroDocument
namespace Inference

/-- The type that every value can be written as. -/
def widest : Json := .str "string"

/-- The type of a scalar. Exact decimals are strings, so that their digits survive unchanged. -/
def scalarType? (v : Value) : Option Json :=
  match v.kind? with
  | none => none
  | some .null => some (.str "null")
  | some .bool => some (.str "boolean")
  | some .int => some (.str "long")
  | some .float => some (.str "double")
  | some .decimal => some widest
  | some .text => some widest
  | some .timestamp =>
    match v with
    | .timestamp t =>
      some (Schema.primitive "long"
        (some (if t.isAware then "timestamp-micros" else "local-timestamp-micros")))
    | _ => none
  | some .date => some (Schema.primitive "int" (some "date"))
  | some .time => some (Schema.primitive "long" (some "time-micros"))
  | some .bytes => some (.str "bytes")
  | some .list => none
  | some .struct => none

def scalarType (v : Value) : Except Failure Json :=
  match v.kind? with
  | none => .error (.unsupportedValue v.typeName)
  | some kind =>
    match scalarType? v with
    | some type => .ok type
    | none => .error (.notScalar kind)

/-- The type of a place where two types were seen. -/
def widen (a b : Json) : Json := if a.same b then a else widest

end Inference
end AvroDocument
