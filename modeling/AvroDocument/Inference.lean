import AvroDocument.Inference.Outline
import AvroDocument.Options

/-!
# AvroDocument.Inference

The schema of a list of documents.

All documents count, because a later one may add fields or show that an earlier one may be null.
Documents may differ in any way: what is missing or null somewhere may be null in the schema, scalars
of several types are strings, and all items of lists at one position share one type.

* `inferSchema`: the schema that every document fits.
-/

namespace AvroDocument
namespace Inference

/-- Counts documents up to a limit; zero stands for no limit. -/
def Accumulator.addAll (limit : Nat) (a : Accumulator) : List Value → Except Failure Accumulator
  | [] => .ok a
  | document :: rest =>
    if limit ≠ 0 && limit ≤ a.documents then .ok a
    else
      match a.add document with
      | (_, some failure) => .error failure
      | (a, none) => a.addAll limit rest

end Inference

open Inference

/-- The schema that a list of documents fits. -/
def inferSchema (options : Options) (documents : List Value) : Except Failure Json :=
  match Accumulator.addAll options.rowsToScan {} documents with
  | .error e => .error e
  | .ok a => a.schema options.typeName options.namespaceName options.altNamesKey

end AvroDocument
