import AvroDocument.Power

/-!
# AvroDocument.Binary.Word

Numbers as a fixed count of bytes.

* `littleEndian`, `ofLittleEndian`: natural numbers, the lowest byte first.
* `signedBytes`, `ofSignedBytes`: integers in two's complement, the highest byte first.
* `signedSize`: the bytes that an integer takes.
-/

namespace AvroDocument
namespace Word

/-- The lowest bytes of a number. -/
def littleEndian : Nat → Nat → List UInt8
  | 0, _ => []
  | count + 1, n => UInt8.ofNat n :: littleEndian count (n / 256)

def ofLittleEndian : List UInt8 → Nat
  | [] => 0
  | b :: rest => b.toNat + 256 * ofLittleEndian rest

/-- The number of bits of a natural number; none for zero. -/
def bitLength (n : Nat) : Nat := if n = 0 then 0 else n.log2 + 1

/-- The number of bytes for an integer: its bits, one for the sign, rounded up. -/
def signedSize (n : Int) : Nat := (bitLength n.natAbs + 8) / 8

/-- An integer in two's complement. -/
def signedBytes (count : Nat) (n : Int) : List UInt8 :=
  (littleEndian count (n % (256 ^ count : Nat)).toNat).reverse

/-- The integer of a number in two's complement; no bytes stand for zero. -/
def ofSignedBytes (bytes : List UInt8) : Int :=
  let n := ofLittleEndian bytes.reverse
  match bytes with
  | [] => 0
  | first :: _ => if first < 128 then (n : Int) else (n : Int) - (256 ^ bytes.length : Nat)

end Word
end AvroDocument
