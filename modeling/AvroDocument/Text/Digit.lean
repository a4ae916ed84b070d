/-!
# AvroDocument.Text.Digit

Decimal digits of every script.

* `digitValue?`: the value of a decimal digit.
* `digitsValue`: the number that a run of digits spells in base ten.
-/

namespace AvroDocument
namespace Text

/-- The digit zero of each script that has decimal digits; the other nine follow it. -/
def zeroDigits : List Nat := [
  48, 1632, 1776, 1984, 2406, 2534, 2662, 2790, 2918, 3046, 3174, 3302, 3430, 3558, 3664, 3792,
  3872, 4160, 4240, 6112, 6160, 6470, 6608, 6784, 6800, 6992, 7088, 7232, 7248, 42528, 43216,
  43264, 43472, 43504, 43600, 44016, 65296, 66720, 68912, 69734, 69872, 69942, 70096, 70384,
  70736, 70864, 71248, 71360, 71472, 71904, 72016, 72784, 73040, 73120, 92768, 92864, 93008,
  120782, 120792, 120802, 120812, 120822, 123200, 123632, 125264, 130032]

/-- The value of a decimal digit of any script. -/
def digitValue? (c : Char) : Option Nat :=
  let n := c.toNat
  (zeroDigits.find? fun z => decide (z ≤ n) && decide (n < z + 10)).map (n - ·)

def isDigit (c : Char) : Bool := (digitValue? c).isSome

/-- The number that a list of digits spells in base ten; other characters count as zero. -/
def digitsValue (cs : List Char) : Nat :=
  cs.foldl (fun n c => 10 * n + (digitValue? c).getD 0) 0

end Text
end AvroDocument
