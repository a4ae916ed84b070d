import AvroDocument.Binary64
import AvroDocument.Text.Numeral

/-!
# AvroDocument.Binary64.Text

Floating point numbers as text: the fewest digits that read back.

* `shortest`: the digits. For one digit, two digits, and so on, the two decimal neighbours of the
  number are tried against the interval of reals that round to it; the first count of digits that
  hits it wins, and of two hits the nearer.
* `text`: positional between `0.0001` and `10 ^ 16`, with an exponent outside.
* `ofText?`: reads a number, also with blanks, underscores, and the words for infinity and NaN.
-/

namespace AvroDocument
namespace Binary64

/-- The greatest `e` with `10 ^ e ≤ num / den`, for positive `num` and `den`. -/
def decimalLog (num den : Nat) : Int :=
  if den ≤ num then digitCount (num / den) - 1
  else
    let t := digitCount (den / num)
    if den ≤ num * 10 ^ (t - 1) then -((t : Int) - 1) else -(t : Int)

/-- The better of the two neighbours of `a / b` on the integers that lies between `low / b` and
`high / b`, ends included when `closed`. -/
def neighbour? (a b low high : Nat) (closed : Bool) : Option Nat :=
  let inside (x : Nat) : Bool :=
    if closed then decide (low ≤ x * b) && decide (x * b ≤ high)
    else decide (low < x * b) && decide (x * b < high)
  let down := a / b
  match inside down, inside (down + 1) with
  | true, true => some (Format.nearest a b)
  | true, false => some down
  | false, true => some (down + 1)
  | false, false => none

/-- The shortest decimal `d * 10 ^ k` that rounds to `m * 2 ^ q`, as the pair of `d` and `k`. -/
def shortest (m : Nat) (q : Int) : Nat × Int :=
  let low := if m = 2 ^ 52 && decide (-1074 < q) then 4 * m - 1 else 4 * m - 2
  let high := 4 * m + 2
  let closed := m % 2 == 0
  let num := 2 ^ (q - 2).toNat
  let den := 2 ^ (2 - q).toNat
  let top := decimalLog (4 * m * num) den
  let attempt (n : Nat) : Option (Nat × Int) :=
    let k := top - n
    let up := num * 10 ^ (-k).toNat
    let b := den * 10 ^ k.toNat
    (neighbour? (4 * m * up) b (low * up) (high * up) closed).map fun d => (d, k)
  ((List.range 17).findSome? attempt).getD (0, 0)

/-- The digits of a positive number without zeros at the end, and the place of the decimal point
relative to the first of them. -/
def shortestDigits (m : Nat) (q : Int) : List Char × Int :=
  let (d, k) := shortest m q
  let ds := Nat.toDigits 10 d
  ((ds.reverse.dropWhile (· == '0')).reverse, k + ds.length)

/-- The exponent as it is written: a sign and at least two digits. -/
def exponentText (e : Int) : String :=
  let ds := toString e.natAbs
  (if e < 0 then "e-" else "e+") ++ (if ds.length < 2 then "0" ++ ds else ds)

/-- Digits with the decimal point at the given place. -/
def layout (ds : List Char) (point : Int) : String :=
  let zeros (n : Nat) : List Char := List.replicate n '0'
  if point ≤ -4 || 16 < point then
    String.ofList (match ds with
      | [] => []
      | [d] => [d]
      | d :: rest => d :: '.' :: rest) ++ exponentText (point - 1)
  else if point ≤ 0 then String.ofList ('0' :: '.' :: (zeros (-point).toNat ++ ds))
  else if ds.length ≤ point.toNat then
    String.ofList (ds ++ zeros (point.toNat - ds.length) ++ ['.', '0'])
  else String.ofList (ds.take point.toNat ++ '.' :: ds.drop point.toNat)

/-- The number as text: the fewest digits that read back as the same number. -/
def text (x : Binary64) : String :=
  if x.isNaN then "nan"
  else
    let magnitude :=
      if x.isInfinite then "inf"
      else if x.isZero then "0.0"
      else
        let (ds, point) := shortestDigits x.significand x.scale
        layout ds point
    if x.isNegative then "-" ++ magnitude else magnitude

def ofNumeral (n : Text.Numeral) : Binary64 := ofDecimal n.negative n.coefficient n.exponent

/-- Reads the text of a number. -/
def ofText? (s : String) : Option Binary64 :=
  let cs := Text.trimSpace s.toList
  let (negative, body) := Text.splitSign cs
  let word := String.ofList (body.map Char.toLower)
  if word = "inf" || word = "infinity" then some (infinity negative)
  else if word = "nan" then some (nan negative)
  else
    match Text.dropUnderscores? false cs with
    | none => none
    | some plain => (Text.Numeral.read? plain).map ofNumeral

end Binary64
end AvroDocument
