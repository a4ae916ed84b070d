import AvroDocument.Power

/-!
# AvroDocument.Binary64

64-bit floating point numbers as bit patterns. Everything about a number is read off its bits
with exact arithmetic on `Nat`, so that signs of zero and payloads of NaN survive and every
rounding is a definition that can be reasoned about.

* `Format.round`: the number of a binary format that is nearest to a ratio, ties to even.
* `Binary64.ofRatio`, `Binary64.ofDecimal`, `Binary64.ofInt?`: correctly rounded conversions.
* `Binary64.toBinary32`, `Binary64.ofBinary32`: the 32-bit format.
-/

namespace AvroDocument

/-- A 64-bit floating point number, kept as its bits. -/
structure Binary64 where
  bits : UInt64
deriving DecidableEq, Inhabited

/-- A binary floating point format: numbers `m * 2 ^ q` with `m < 2 ^ precision` and
`leastScale ≤ q ≤ greatestScale`. -/
structure Format where
  precision : Nat
  leastScale : Int
  greatestScale : Int

namespace Format

def double : Format := ⟨53, -1074, 971⟩

def single : Format := ⟨24, -149, 104⟩

/-- The quotient rounded to the nearest natural number, a tie to the even one. -/
def nearest (num den : Nat) : Nat :=
  let down := num / den
  let rest := num % den
  if 2 * rest < den then down
  else if 2 * rest > den then down + 1
  else if down % 2 = 0 then down else down + 1

/-- The greatest `e` with `2 ^ e ≤ num / den`, for positive `num` and `den`. -/
def ratioLog (num den : Nat) : Int :=
  let e : Int := (num.log2 : Int) - (den.log2 : Int)
  let reached : Bool :=
    if 0 ≤ e then decide (den * 2 ^ e.toNat ≤ num)
    else decide (den ≤ num * 2 ^ (-e).toNat)
  if reached then e else e - 1

/-- The significand and scale of the number of the format nearest to `num / den`, ties to an
even significand; `none` when that lies above the greatest number. -/
def round (f : Format) (num den : Nat) : Option (Nat × Int) :=
  if num = 0 then some (0, f.leastScale)
  else
    let q := max f.leastScale (ratioLog num den - ((f.precision : Int) - 1))
    let m :=
      if 0 ≤ q then nearest num (den * 2 ^ q.toNat)
      else nearest (num * 2 ^ (-q).toNat) den
    let (m, q) := if m = 2 ^ f.precision then (2 ^ (f.precision - 1), q + 1) else (m, q)
    if f.greatestScale < q then none else some (m, q)

end Format

namespace Binary64

def isNegative (x : Binary64) : Bool := decide (2 ^ 63 ≤ x.bits.toNat)

def exponentField (x : Binary64) : Nat := x.bits.toNat / 2 ^ 52 % 2 ^ 11

def fraction (x : Binary64) : Nat := x.bits.toNat % 2 ^ 52

def isNaN (x : Binary64) : Bool := x.exponentField == 2047 && x.fraction != 0

def isInfinite (x : Binary64) : Bool := x.exponentField == 2047 && x.fraction == 0

def isFinite (x : Binary64) : Bool := x.exponentField != 2047

/-- The magnitude of a finite number is `significand * 2 ^ scale`. -/
def significand (x : Binary64) : Nat :=
  if x.exponentField = 0 then x.fraction else 2 ^ 52 + x.fraction

def scale (x : Binary64) : Int := (max x.exponentField 1 : Nat) - 1075

def isZero (x : Binary64) : Bool := x.exponentField == 0 && x.fraction == 0

/-- Whether the value of the number is the given integer. -/
def equalsInt (x : Binary64) (n : Int) : Bool :=
  x.isFinite && (x.isZero || x.isNegative == decide (n < 0)) &&
    (if 0 ≤ x.scale then n.natAbs == x.significand * 2 ^ x.scale.toNat
    else n.natAbs * 2 ^ (-x.scale).toNat == x.significand)

/-- Whether two numbers have one value; a NaN counts as equal to a NaN. -/
def sameNumber (x y : Binary64) : Bool :=
  x == y || (x.isZero && y.isZero) || (x.isNaN && y.isNaN)

def ofFields (negative : Bool) (exponentField fraction : Nat) : Binary64 :=
  ⟨UInt64.ofNat ((if negative then 2 ^ 63 else 0) + exponentField * 2 ^ 52 + fraction)⟩

def infinity (negative : Bool) : Binary64 := ofFields negative 2047 0

def nan (negative : Bool) : Binary64 := ofFields negative 2047 (2 ^ 51)

def zero (negative : Bool) : Binary64 := ofFields negative 0 0

/-- The number with magnitude `m * 2 ^ q`, for a pair that `Format.double.round` gives. -/
def ofScaled (negative : Bool) (m : Nat) (q : Int) : Binary64 :=
  if m < 2 ^ 52 then ofFields negative 0 m
  else ofFields negative (q + 1075).toNat (m - 2 ^ 52)

/-- The number nearest to `num / den` with the given sign; beyond the greatest one, infinity. -/
def ofRatio (negative : Bool) (num den : Nat) : Binary64 :=
  match Format.double.round num den with
  | some (m, q) => ofScaled negative m q
  | none => infinity negative

/-- The number nearest to an integer; `none` when that lies beyond the greatest one. -/
def ofInt? (n : Int) : Option Binary64 :=
  (Format.double.round n.natAbs 1).map fun (m, q) => ofScaled (decide (n < 0)) m q

/-- The number of decimal digits of a natural number, one for zero. -/
def digitCount (n : Nat) : Nat := (Nat.toDigits 10 n).length

/-- The number nearest to `coefficient * 10 ^ exponent`. Exponents far outside the range of the
format are settled by the number of digits alone. -/
def ofDecimal (negative : Bool) (coefficient : Nat) (exponent : Int) : Binary64 :=
  if coefficient = 0 then zero negative
  else
    let top : Int := digitCount coefficient + exponent
    if 310 < top then infinity negative
    else if top < -330 then zero negative
    else if 0 ≤ exponent then ofRatio negative (coefficient * 10 ^ exponent.toNat) 1
    else ofRatio negative coefficient (10 ^ (-exponent).toNat)

/-- The bits of the nearest 32-bit number; beyond the greatest one, of infinity. -/
def toBinary32 (x : Binary64) : UInt32 :=
  let sign : Nat := if x.isNegative then 2 ^ 31 else 0
  if x.isNaN then UInt32.ofNat (sign + 255 * 2 ^ 23 + (2 ^ 22 + x.fraction / 2 ^ 29 % 2 ^ 22))
  else if x.isInfinite then UInt32.ofNat (sign + 255 * 2 ^ 23)
  else
    let rounded :=
      if 0 ≤ x.scale then Format.single.round (x.significand * 2 ^ x.scale.toNat) 1
      else Format.single.round x.significand (2 ^ (-x.scale).toNat)
    match rounded with
    | none => UInt32.ofNat (sign + 255 * 2 ^ 23)
    | some (m, q) =>
      if m < 2 ^ 23 then UInt32.ofNat (sign + m)
      else UInt32.ofNat (sign + (q + 150).toNat * 2 ^ 23 + (m - 2 ^ 23))

/-- The number that a 32-bit pattern stands for. A NaN keeps its sign and payload. -/
def ofBinary32 (bits : UInt32) : Binary64 :=
  let n := bits.toNat
  let negative := decide (2 ^ 31 ≤ n)
  let field := n / 2 ^ 23 % 2 ^ 8
  let fraction := n % 2 ^ 23
  if field = 255 then
    if fraction = 0 then infinity negative
    else ofFields negative 2047 (2 ^ 51 + fraction % 2 ^ 22 * 2 ^ 29)
  else
    let m := if field = 0 then fraction else 2 ^ 23 + fraction
    if 150 ≤ field then ofRatio negative (m * 2 ^ (field - 150)) 1
    else ofRatio negative m (2 ^ (150 - max field 1))

end Binary64

end AvroDocument
