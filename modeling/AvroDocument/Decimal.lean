import AvroDocument.Binary64.Text

/-!
# AvroDocument.Decimal

Exact decimal numbers: a sign, a coefficient and an exponent, with infinities and NaN beside them.

* `text`: the number with its exponent kept, so that reading it gives the same number back.
* `positional`: the number written out, without an exponent.
* `rescale?`, `quantize?`: the number with a given exponent, rounded half to even, within 28 digits.
* `ofText?`, `ofBinary64`, `toBinary64?`: conversions.
-/

namespace AvroDocument

/-- A decimal number; a finite one is `coefficient * 10 ^ exponent`. -/
inductive Decimal where
  | finite (negative : Bool) (coefficient : Nat) (exponent : Int)
  | infinite (negative : Bool)
  | nan (negative : Bool) (signaling : Bool) (payload : Nat)
deriving DecidableEq, Inhabited

namespace Decimal

open Text (Numeral)

def ofInt (n : Int) : Decimal := .finite (decide (n < 0)) n.natAbs 0

/-- The greatest exponent that the leading digit of a number may have. -/
def greatestExponent : Int := 999999999999999999

/-- The least exponent that the last digit of a number may have. -/
def leastExponent : Int := -1999999999999999997

/-- The exponent of the leading digit. -/
def adjusted (coefficient : Nat) (exponent : Int) : Int :=
  exponent + Binary64.digitCount coefficient - 1

/-- The number a numeral spells; `none` when its exponent is beyond the limits. -/
def ofNumeral? (n : Numeral) : Option Decimal :=
  if n.exponent < leastExponent || greatestExponent < adjusted n.coefficient n.exponent then none
  else some (.finite n.negative n.coefficient n.exponent)

def signText (negative : Bool) : String := if negative then "-" else ""

/-- The digits of a finite number with the exponent of the last digit kept visible. -/
def scientific (coefficient : Nat) (exponent : Int) : String :=
  let ds := Nat.toDigits 10 coefficient
  let left : Int := exponent + ds.length
  let point : Int := if exponent ≤ 0 && decide (-6 < left) then left else 1
  let body :=
    if point ≤ 0 then '0' :: '.' :: (List.replicate (-point).toNat '0' ++ ds)
    else if ds.length ≤ point.toNat then ds ++ List.replicate (point.toNat - ds.length) '0'
    else ds.take point.toNat ++ '.' :: ds.drop point.toNat
  let e := left - point
  String.ofList body ++
    (if e = 0 then "" else (if e < 0 then "E-" else "E+") ++ toString e.natAbs)

/-- The digits of a finite number written out. -/
def writtenOut (coefficient : Nat) (exponent : Int) : String :=
  let ds := Nat.toDigits 10 coefficient
  if 0 ≤ exponent then
    String.ofList (if coefficient = 0 then ds else ds ++ List.replicate exponent.toNat '0')
  else
    let places := (-exponent).toNat
    let padded := List.replicate (places + 1 - ds.length) '0' ++ ds
    String.ofList (padded.take (padded.length - places) ++
      '.' :: padded.drop (padded.length - places))

def nanText (signaling : Bool) (payload : Nat) : String :=
  (if signaling then "sNaN" else "NaN") ++ (if payload = 0 then "" else toString payload)

/-- The number as text; reading it back gives the same number. -/
def text : Decimal → String
  | .finite negative c e => signText negative ++ scientific c e
  | .infinite negative => signText negative ++ "Infinity"
  | .nan negative signaling payload => signText negative ++ nanText signaling payload

/-- The number written out, without an exponent. -/
def positional : Decimal → String
  | .finite negative c e => signText negative ++ writtenOut c e
  | .infinite negative => signText negative ++ "Infinity"
  | .nan negative signaling payload => signText negative ++ nanText signaling payload

/-- Reads the text of a number: a numeral, or a word for an infinity or NaN. Underscores do not
count. -/
def ofText? (s : String) : Option Decimal :=
  let cs := (Text.trimChars s.toList).filter (· ≠ '_')
  let (negative, body) := Text.splitSign cs
  let lowered := body.map Char.toLower
  let payload? (digits : List Char) : Option Nat :=
    if digits.all Text.isDigit then some (Text.digitsValue digits) else none
  match lowered with
  | 's' :: 'n' :: 'a' :: 'n' :: digits => (payload? digits).map (.nan negative true ·)
  | 'n' :: 'a' :: 'n' :: digits => (payload? digits).map (.nan negative false ·)
  | 'i' :: 'n' :: 'f' :: rest =>
    if rest.isEmpty || rest == "inity".toList then some (.infinite negative) else none
  | _ => (Numeral.read? cs).bind ofNumeral?

/-- The decimal that the text of a floating point number spells. -/
def ofBinary64 (x : Binary64) : Decimal :=
  if x.isNaN then .nan false false 0
  else if x.isInfinite then .infinite x.isNegative
  else if x.isZero then .finite x.isNegative 0 (-1)
  else
    match Numeral.read? x.text.toList with
    | some n => .finite n.negative n.coefficient n.exponent
    | none => .nan false false 0

/-- The floating point number nearest to a decimal; a signaling NaN has none. -/
def toBinary64? : Decimal → Option Binary64
  | .finite negative c e => some (Binary64.ofDecimal negative c e)
  | .infinite negative => some (.infinity negative)
  | .nan negative false _ => some (.nan negative)
  | .nan _ true _ => none

/-- The number of digits that decimal arithmetic keeps. -/
def workingDigits : Nat := 28

/-- The greatest exponent that decimal arithmetic gives to a leading digit. -/
def workingExponent : Int := 999999

/-- The least exponent that decimal arithmetic gives to a last digit. -/
def workingFloor : Int := -workingExponent - workingDigits + 1

/-- The greatest number of places by which decimal arithmetic moves the point. -/
def shiftLimit : Nat := 2000054

/-- The outcome of giving a finite number another exponent: the new coefficient, and whether no
digit other than zero was cut. -/
structure Rescaled where
  coefficient : Nat
  exact : Bool
deriving DecidableEq

/-- The coefficient for another exponent, rounded half to even; `none` when it would need more
digits than are kept. -/
def rescale? (coefficient : Nat) (exponent target : Int) : Option Rescaled :=
  if coefficient = 0 then some ⟨0, true⟩
  else
    let top := adjusted coefficient exponent
    if (workingDigits : Int) < top - target + 1 then none
    else if target ≤ exponent then
      some ⟨coefficient * 10 ^ (exponent - target).toNat, true⟩
    else if top < target - 1 then some ⟨0, false⟩
    else
      let unit := 10 ^ (target - exponent).toNat
      let c := Format.nearest coefficient unit
      if workingDigits < Binary64.digitCount c then none
      else some ⟨c, coefficient % unit == 0⟩

/-- The same, unless the exponent of the leading digit is too great then. -/
def quantize? (coefficient : Nat) (exponent target : Int) : Option Rescaled :=
  (rescale? coefficient exponent target).filter fun r =>
    adjusted r.coefficient target ≤ workingExponent

end Decimal
end AvroDocument
