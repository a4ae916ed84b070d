import AvroDocument.Proofs.Equality
import AvroDocument.Proofs.SchemaWalks

/-!
# AvroDocument.Proofs.Decisions

What holds of given schemas is decided by computation.

* `Schema.check_ok_iff`: the check of a schema, by its walk. The walk goes down along a depth, so it
  computes where the check, with its two measures, does not.
* `Encoder.ofSchema_eq`, `Decoder.ofSchema_eq`: what is made of a schema that is checked and laid out.
-/

namespace AvroDocument

/-! ## Schemas -/

namespace Schema

theorem check_ok_iff (schema : Json) : check schema = .ok (Registry.ofSchema schema) ↔
    (checkNested schema (walkDepth "" schema)).any Except.isOk = true := by
  rw [checkNested_eq (Nat.le_refl _), check]
  cases checkNode (Registry.ofSchema schema) (Registry.depthBound schema) "" Pointer.root [] schema <;>
    simp [Except.isOk, Except.toBool]

instance (schema : Json) : Decidable (check schema = .ok (Registry.ofSchema schema)) :=
  decidable_of_iff _ (check_ok_iff schema).symm

end Schema

/-! ## Encoders and decoders -/

section

variable {schema : Json} {layout : Layout}

theorem Encoder.ofSchema_eq (options : Options)
    (hcheck : Schema.check schema = .ok (Schema.Registry.ofSchema schema))
    (hlayout : Layout.ofSchema schema = .ok layout) :
    Encoder.ofSchema options schema =
      .ok ⟨schema, Schema.Registry.ofSchema schema, layout, options⟩ := by
  simp only [Encoder.ofSchema, hcheck, hlayout]

theorem Decoder.ofSchema_eq (options : Options)
    (hcheck : Schema.check schema = .ok (Schema.Registry.ofSchema schema))
    (hlayout : Layout.ofSchema schema = .ok layout) :
    Decoder.ofSchema options (some schema) =
      .ok ⟨some (schema, Schema.Registry.ofSchema schema, layout), options⟩ := by
  simp only [Decoder.ofSchema, hcheck, hlayout]

end

end AvroDocument
