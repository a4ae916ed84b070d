import AvroDocument.Binary.Reader
import AvroDocument.Binary.Writer

/-!
# AvroDocument.Proofs.Bytes

Integers, words and texts come back from their bytes, whatever stands behind them.

* `readInt?_writeInt`: integers of variable length.
* `ofLittleEndian_littleEndian`: words.
* `readText_writeText`: texts.
-/

namespace AvroDocument

namespace Varint

theorem readNat?_writeNat (n : Nat) (rest : List UInt8) :
    readNat? (writeNat n ++ rest) = some (n, rest) := by
  induction n using Nat.strongRecOn with
  | ind n ih =>
    rw [writeNat]
    split
    · rename_i h
      have hb : (UInt8.ofNat n).toNat = n := by
        rw [UInt8.toNat_ofNat']
        omega
      have hlt : UInt8.ofNat n < 128 := by
        rw [UInt8.lt_iff_toNat_lt, hb]
        exact h
      rw [List.singleton_append, readNat?, if_pos hlt, hb]
    · rename_i h
      have hb : (UInt8.ofNat (n % 128 + 128)).toNat = n % 128 + 128 := by
        rw [UInt8.toNat_ofNat']
        omega
      have hge : ¬ UInt8.ofNat (n % 128 + 128) < 128 := by
        rw [UInt8.lt_iff_toNat_lt, hb]
        show ¬ n % 128 + 128 < 128
        omega
      rw [List.cons_append, readNat?, if_neg hge, ih (n / 128) (by omega)]
      simp only [hb, Option.some.injEq, Prod.mk.injEq, and_true]
      omega

theorem readInt?_writeInt (n : Int) (rest : List UInt8) :
    readInt? (writeInt n ++ rest) = some (n, rest) := by
  rw [readInt?, writeInt, readNat?_writeNat]
  simp only [unzigzag_zigzag]

theorem writeInt_zero : writeInt 0 = [0] := by
  rw [writeInt, writeNat]
  rfl

theorem length_writeNat_pos (n : Nat) : 0 < (writeNat n).length := by
  rw [writeNat]
  split <;> simp

theorem length_writeInt_pos (n : Int) : 0 < (writeInt n).length := length_writeNat_pos _

end Varint

namespace Word

theorem length_littleEndian (count n : Nat) : (littleEndian count n).length = count := by
  induction count generalizing n with
  | zero => rfl
  | succ count ih => rw [littleEndian, List.length_cons, ih]

theorem length_signedBytes (count : Nat) (n : Int) : (signedBytes count n).length = count := by
  rw [signedBytes, List.length_reverse, length_littleEndian]

theorem ofLittleEndian_littleEndian (count n : Nat) :
    ofLittleEndian (littleEndian count n) = n % 256 ^ count := by
  induction count generalizing n with
  | zero => rw [littleEndian, ofLittleEndian, Nat.pow_zero, Nat.mod_one]
  | succ count ih =>
    have hb : (UInt8.ofNat n).toNat = n % 256 := UInt8.toNat_ofNat'
    rw [littleEndian, ofLittleEndian, ih, hb, Nat.pow_succ', Nat.mod_mul]

theorem littleEndian_succ (count n : Nat) :
    littleEndian (count + 1) n = littleEndian count n ++ [UInt8.ofNat (n / 256 ^ count)] := by
  induction count generalizing n with
  | zero => rw [littleEndian, littleEndian, littleEndian, Nat.pow_zero, Nat.div_one]; rfl
  | succ count ih =>
    rw [littleEndian, ih, littleEndian, List.cons_append, Nat.div_div_eq_div_mul, Nat.pow_succ']

/-- An integer is read back from its two's complement, if that has room for it. -/
theorem ofSignedBytes_signedBytes {count : Nat} {n : Int}
    (hlow : -(128 * 256 ^ count : Nat) ≤ n) (hhigh : n < (128 * 256 ^ count : Nat)) :
    ofSignedBytes (signedBytes (count + 1) n) = n := by
  have hpower : 256 ^ (count + 1) = 256 * 256 ^ count := Nat.pow_succ'
  have hpos : 0 < 256 ^ count := Nat.pow_pos (by decide)
  have hlength := length_signedBytes (count + 1) n
  have hnumber : ofLittleEndian (signedBytes (count + 1) n).reverse =
      (n % (256 ^ (count + 1) : Nat)).toNat := by
    rw [signedBytes, List.reverse_reverse, ofLittleEndian_littleEndian]
    apply Nat.mod_eq_of_lt
    have := Int.emod_lt_of_pos n (show (0 : Int) < (256 ^ (count + 1) : Nat) by
      exact_mod_cast Nat.pow_pos (by decide))
    omega
  have hfirst : signedBytes (count + 1) n =
      UInt8.ofNat ((n % (256 ^ (count + 1) : Nat)).toNat / 256 ^ count) ::
        (littleEndian count (n % (256 ^ (count + 1) : Nat)).toNat).reverse := by
    rw [signedBytes, littleEndian_succ, List.reverse_append, List.reverse_singleton,
      List.singleton_append]
  have hsmall (k : Nat) (hk : k < 256) : UInt8.ofNat k < 128 ↔ k < 128 := by
    rw [UInt8.lt_iff_toNat_lt, UInt8.toNat_ofNat', Nat.mod_eq_of_lt hk]
    rfl
  unfold ofSignedBytes
  simp only [hnumber]
  rw [hfirst]
  simp only
  rw [← hfirst, hlength, hpower]
  generalize 256 ^ count = unit at *
  by_cases hn : 0 ≤ n
  · have hmod : n % (256 * unit : Nat) = n := Int.emod_eq_of_lt hn (by omega)
    have hquotient : n.toNat / unit < 128 := Nat.div_lt_of_lt_mul (by omega)
    rw [hmod, if_pos ((hsmall _ (by omega)).mpr hquotient)]
    omega
  · have hmod : n % (256 * unit : Nat) = n + (256 * unit : Nat) := by
      rw [← Int.add_emod_right, Int.emod_eq_of_lt (by omega) (by omega)]
    have hquotient : 128 ≤ (n + (256 * unit : Nat)).toNat / unit := by
      rw [Nat.le_div_iff_mul_le hpos]
      omega
    have hbound : (n + (256 * unit : Nat)).toNat / unit < 256 := Nat.div_lt_of_lt_mul (by omega)
    rw [hmod, if_neg (by rw [hsmall _ hbound]; omega)]
    omega

/-- The size of an integer has room for it. -/
theorem ofSignedBytes_signedSize (n : Int) :
    ofSignedBytes (signedBytes (signedSize n) n) = n := by
  obtain ⟨count, hcount⟩ : ∃ count, signedSize n = count + 1 :=
    ⟨signedSize n - 1, by unfold signedSize; omega⟩
  have hbits : bitLength n.natAbs ≤ 8 * count + 7 := by
    unfold signedSize at hcount
    omega
  have hlt : n.natAbs < 2 ^ bitLength n.natAbs := by
    unfold bitLength
    split
    · omega
    · exact Nat.lt_log2_self
  have hroom : n.natAbs < 128 * 256 ^ count := by
    refine Nat.lt_of_lt_of_le hlt ?_
    rw [show 256 = 2 ^ 8 by rfl, ← Nat.pow_mul, show 128 = 2 ^ 7 by rfl, ← Nat.pow_add]
    exact Nat.pow_le_pow_right (by decide) (by omega)
  rw [hcount]
  exact ofSignedBytes_signedBytes (by omega) (by omega)

end Word

namespace Text

theorem ofUtf8?_utf8 (s : String) : ofUtf8? (utf8 s) = some s := by
  have hb : (⟨(utf8 s).toArray⟩ : ByteArray) = s.toUTF8 := rfl
  rw [ofUtf8?, hb, String.fromUTF8?]
  exact dif_pos (show s.toUTF8.IsValidUTF8 from s.isValidUTF8)

end Text

namespace Binary

theorem takeBytes_append (bytes rest : List UInt8) :
    takeBytes bytes.length (bytes ++ rest) = .ok (bytes, rest) := by
  induction bytes with
  | nil => rfl
  | cons b bytes ih =>
    rw [List.length_cons, List.cons_append, takeBytes, ih]
    rfl

theorem takeBytes_littleEndian (count n : Nat) (rest : List UInt8) :
    takeBytes count (Word.littleEndian count n ++ rest) =
      .ok (Word.littleEndian count n, rest) := by
  have htake := takeBytes_append (Word.littleEndian count n) rest
  rwa [Word.length_littleEndian] at htake

theorem readInt_writeInt (n : Int) (rest : List UInt8) :
    readInt (Varint.writeInt n ++ rest) = .ok (n, rest) := by
  rw [readInt, Varint.readInt?_writeInt]

theorem readSized_writeBytes (bytes rest : List UInt8) :
    readSized (writeBytes bytes ++ rest) = .ok (bytes, rest) := by
  rw [readSized, writeBytes, List.append_assoc, readInt_writeInt]
  exact takeBytes_append bytes rest

theorem readText_writeText (s : String) (rest : List UInt8) :
    readText (writeText s ++ rest) = .ok (s, rest) := by
  rw [readText, writeText, readSized_writeBytes]
  simp only [Text.ofUtf8?_utf8]

end Binary
end AvroDocument
