import AvroDocument.Text.Blank
import AvroDocument.Text.Digit

/-!
# AvroDocument.Text.Numeral

Numbers as they are typed: an optional sign, digits with an optional point, an optional exponent.

* `Numeral.read?`: the numeral that a whole text spells; the digits may be those of any script.
* `readInt?`: an integer with blanks around it and single underscores between its digits.
-/

namespace AvroDocument
namespace Text

/-- A decimal numeral: `coefficient * 10 ^ exponent`, with a sign of its own. -/
structure Numeral where
  negative : Bool
  coefficient : Nat
  exponent : Int
deriving DecidableEq

/-- The sign in front of a numeral: whether it is a minus, and the rest. -/
def splitSign : List Char → Bool × List Char
  | '-' :: rest => (true, rest)
  | '+' :: rest => (false, rest)
  | cs => (false, cs)

/-- A signed run of digits that reaches to the end of the text. -/
def readDigits? (cs : List Char) : Option Int :=
  let (negative, ds) := splitSign cs
  if ds.isEmpty || !ds.all isDigit then none
  else some (if negative then -(digitsValue ds : Int) else digitsValue ds)

/-- The exponent at the end of a numeral; none at all counts as zero. -/
def readExponent? : List Char → Option Int
  | [] => some 0
  | c :: rest => if c = 'e' || c = 'E' then readDigits? rest else none

namespace Numeral

/-- Reads `[sign] digits [. [digits]] [exponent]` or `[sign] . digits [exponent]`. -/
def read? (cs : List Char) : Option Numeral :=
  let (negative, body) := splitSign cs
  let whole := body.takeWhile isDigit
  let (fraction, rest) :=
    match body.dropWhile isDigit with
    | '.' :: more => (more.takeWhile isDigit, more.dropWhile isDigit)
    | more => ([], more)
  if whole.isEmpty && fraction.isEmpty then none
  else
    match readExponent? rest with
    | none => none
    | some e => some ⟨negative, digitsValue (whole ++ fraction), e - fraction.length⟩

end Numeral

/-- Drops the underscores of a numeral; `none` when one of them does not stand between digits. -/
def dropUnderscores? : Bool → List Char → Option (List Char)
  | _, [] => some []
  | afterDigit, '_' :: rest =>
    if afterDigit && (rest.head?.map isDigit).getD false then dropUnderscores? false rest else none
  | _, c :: rest => (dropUnderscores? (isDigit c) rest).map (c :: ·)

/-- An integer as people type it: blanks around it, a sign, underscores between digits. -/
def readInt? (s : String) : Option Int :=
  match dropUnderscores? false (trimSpace s.toList) with
  | none => none
  | some cs => readDigits? cs

end Text
end AvroDocument
