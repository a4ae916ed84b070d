import AvroDocument.Inference.Shape

/-!
# AvroDocument.Inference.Naming

Names of fields and records. They do not depend on the order in which keys arrive: keys that are
valid names keep them, the others take suffixes in the order of the keys, and records take suffixes
from the shallowest position on.

* `firstFree`: a name with the least suffix that is not taken.
* `fieldNames`: the names of the keys of one record.
* `recordNames`: the names of records at several positions.
-/

namespace AvroDocument
namespace Inference

/-- A name as it is, then with the suffixes `_2`, `_3` and so on. -/
def suffixed (name : String) : Nat → String
  | 0 => name
  | n + 1 => name ++ "_" ++ toString (n + 2)

/-- The first of a name and its suffixed forms that is not among the taken names, compared behind a
common front; one of `taken.length + 1` forms is free. -/
def firstFree (front : String) (taken : List String) (name : String) : String :=
  (((List.range (taken.length + 1)).map (suffixed name)).find? fun candidate =>
    !taken.contains (front ++ candidate)).getD name

/-- Whether a key is a valid name. -/
def isName (key : String) : Bool := Schema.avroName key = key

/-- Gives names to keys in turn; `names` holds the pairs made so far. -/
def nameKeys (names : List (String × String)) : List String → List (String × String)
  | [] => names
  | key :: keys =>
    let name := firstFree "" (names.map (·.2)) (Schema.avroName key)
    nameKeys (names ++ [(key, name)]) keys

/-- The names of the keys of one record. -/
def fieldNames (keys : List String) : List (String × String) :=
  let valid := keys.filter isName
  let others := (keys.filter fun k => !isName k).mergeSort fun a b => decide (a ≤ b)
  nameKeys (valid.map fun k => (k, k)) others

/-- The order of the steps of positions at one depth: by key, items after keys. -/
def stepsLe : Position → Position → Bool
  | [], _ => true
  | _ :: _, [] => false
  | .key a :: p, .key b :: q => if a = b then stepsLe p q else decide (a ≤ b)
  | .key _ :: _, .items :: _ => true
  | .items :: _, .key _ :: _ => false
  | .items :: p, .items :: q => stepsLe p q

/-- The order of positions: shallower ones first. -/
def positionLe (p q : Position) : Bool :=
  if p.length = q.length then stepsLe p q else decide (p.length < q.length)

/-- A record that needs a name. -/
structure RecordSite where
  position : Position
  namespaceName : String
  name : String

/-- Gives names to records in turn; `taken` holds the full names given so far. -/
def nameSites (taken : List String) : List RecordSite → List (Position × String)
  | [] => []
  | site :: sites =>
    let front := site.namespaceName ++ "."
    let name := firstFree front taken site.name
    (site.position, name) :: nameSites ((front ++ name) :: taken) sites

/-- The names of records, no two of which have one full name. -/
def recordNames (sites : List RecordSite) : List (Position × String) :=
  nameSites [] (sites.mergeSort fun a b => positionLe a.position b.position)

end Inference
end AvroDocument
