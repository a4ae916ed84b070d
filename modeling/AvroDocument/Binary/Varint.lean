import AvroDocument.Json

/-!
# AvroDocument.Binary.Varint

Integers of variable length: seven bits to a byte, the lowest first, and a mark on every byte but
the last. Signed integers alternate between the two signs, so that small ones are short.

* `zigzag`, `unzigzag`: signed integers as natural numbers and back.
* `writeNat`, `readNat?`: natural numbers as bytes and back.
* `writeInt`, `readInt?`: signed integers as bytes and back.
-/

namespace AvroDocument
namespace Varint

/-- Numbers from zero up become even, negative ones odd. -/
def zigzag (n : Int) : Nat := if 0 ≤ n then 2 * n.toNat else 2 * n.natAbs - 1

def unzigzag (n : Nat) : Int := if n % 2 = 0 then (n / 2 : Nat) else -((n / 2 : Nat) : Int) - 1

theorem unzigzag_zigzag (n : Int) : unzigzag (zigzag n) = n := by
  unfold zigzag unzigzag
  by_cases h : 0 ≤ n
  · rw [if_pos h]
    split <;> omega
  · rw [if_neg h]
    split <;> omega

def writeNat (n : Nat) : List UInt8 :=
  if n < 128 then [UInt8.ofNat n] else UInt8.ofNat (n % 128 + 128) :: writeNat (n / 128)
termination_by n

/-- Reads a natural number; `none` when the bytes end inside it. -/
def readNat? : List UInt8 → Option (Nat × List UInt8)
  | [] => none
  | b :: rest =>
    if b < 128 then some (b.toNat, rest)
    else
      match readNat? rest with
      | none => none
      | some (n, rest) => some (b.toNat - 128 + 128 * n, rest)

def writeInt (n : Int) : List UInt8 := writeNat (zigzag n)

/-- Reads a signed integer; `none` when the bytes end inside it. -/
def readInt? (bytes : List UInt8) : Option (Int × List UInt8) :=
  match readNat? bytes with
  | none => none
  | some (n, rest) => some (unzigzag n, rest)

end Varint
end AvroDocument
