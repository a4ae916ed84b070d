import AvroDocument.Proofs.Rounding

/-!
# AvroDocument.Proofs.SinglePrecision

Numbers that were cut to 32 bits.

* `Format.round_exact`: the numbers of a format round to themselves.
* `Format.round_bounds`: what rounding gives belongs to the format.
* `Binary64.toBinary32_ofBinary32`: cutting a number a second time changes nothing.
-/

namespace AvroDocument

namespace Format

variable {f : Format} {num den m : Nat} {q : Int}

/-- A number of a format rounds to itself. -/
theorem round_exact (hd : 0 < den) (hprecision : 0 < f.precision) (hpos : 0 < m)
    (hless : m < 2 ^ f.precision) (hleast : f.leastScale ≤ q) (hgreatest : q ≤ f.greatestScale)
    (hnormal : 2 ^ (f.precision - 1) ≤ m ∨ q = f.leastScale)
    (hv : (num : ℚ) / den = m * 2 ^ q) : f.round num den = some (m, q) := by
  have hq := two_zpow_pos q
  have hm : (0 : ℚ) < m := by exact_mod_cast hpos
  have hd' : (0 : ℚ) < den := by exact_mod_cast hd
  have hn : 0 < num := by
    have hratio : (0 : ℚ) < num / den := by rw [hv]; positivity
    rw [div_pos_iff_of_pos_right hd'] at hratio
    exact_mod_cast hratio
  have hbelow : (num : ℚ) / den < 2 ^ (q + f.precision) := by
    have hless' : (m : ℚ) < 2 ^ f.precision := by exact_mod_cast hless
    rw [hv, add_comm, zpow_add₀ (by norm_num), zpow_natCast]
    exact mul_lt_mul_of_pos_right hless' hq
  have hscale : max f.leastScale (ratioLog num den - ((f.precision : Int) - 1)) = q := by
    obtain ⟨hlow, -⟩ := ratioLog_spec hn hd
    have hhigh : ratioLog num den < q + f.precision :=
      (zpow_lt_zpow_iff_right₀ (by norm_num : (1 : ℚ) < 2)).mp (lt_of_le_of_lt hlow hbelow)
    obtain hnormal | rfl := hnormal
    · have hreach : (2 : ℚ) ^ (q + f.precision - 1) ≤ num / den := by
        have hnormal' : (2 : ℚ) ^ (f.precision - 1) ≤ m := by exact_mod_cast hnormal
        rw [hv, show q + f.precision - 1 = ((f.precision - 1 : Nat) : Int) + q by omega,
          zpow_add₀ (by norm_num), zpow_natCast]
        exact mul_le_mul_of_nonneg_right hnormal' hq.le
      have hlog := ratioLog_eq hn hd hreach (by rwa [Int.sub_add_cancel])
      omega
    · omega
  have hnearest := nearest_scaled hd q (m := m) (by rw [hv]; nlinarith) (by rw [hv]; nlinarith)
    fun _ => ⟨by rw [hv]; nlinarith, by rw [hv]; nlinarith⟩
  rw [round_eq hn hscale hnearest, if_neg hless.ne, if_neg (not_lt.mpr hgreatest)]

theorem nearest_le {limit : Nat} (hd : 0 < den) (h : num ≤ limit * den) :
    nearest num den ≤ limit := by
  have hdiv : num / den ≤ limit := Nat.div_le_of_le_mul (by rwa [Nat.mul_comm])
  have hmod := Nat.div_add_mod num den
  unfold nearest
  simp only
  by_cases hall : num / den = limit
  · rw [hall, Nat.mul_comm] at hmod
    have hrest : num % den = 0 := by omega
    rw [hrest, if_pos (by omega)]
    omega
  · split
    · omega
    · split
      · omega
      · split <;> omega

/-- What a ratio rounds to belongs to the format. -/
theorem round_bounds (hd : 0 < den) (hprecision : 0 < f.precision)
    (hscales : f.leastScale ≤ f.greatestScale) (h : f.round num den = some (m, q)) :
    m < 2 ^ f.precision ∧ q ≤ f.greatestScale := by
  by_cases hn : num = 0
  · rw [round, if_pos hn] at h
    cases h
    exact ⟨Nat.pow_pos (by decide), hscales⟩
  have hn : 0 < num := Nat.pos_of_ne_zero hn
  have hd' : (0 : ℚ) < den := by exact_mod_cast hd
  rw [round_eq hn rfl rfl] at h
  generalize hq : max f.leastScale (ratioLog num den - ((f.precision : Int) - 1)) = scale at h
  have hbelow : (num : ℚ) / den < 2 ^ f.precision * 2 ^ scale := by
    refine lt_of_lt_of_le (ratioLog_spec hn hd).2 ?_
    rw [← zpow_natCast, ← zpow_add₀ (by norm_num)]
    exact zpow_le_zpow_right₀ (by norm_num) (by omega)
  have hle : (if 0 ≤ scale then nearest num (den * 2 ^ scale.toNat)
      else nearest (num * 2 ^ (-scale).toNat) den) ≤ 2 ^ f.precision := by
    rw [div_lt_iff₀ hd', two_zpow] at hbelow
    split
    · rename_i hs
      rw [show (-scale).toNat = 0 by omega, Nat.pow_zero, Nat.cast_one, div_one] at hbelow
      refine nearest_le (Nat.mul_pos hd (Nat.pow_pos (by decide))) ?_
      have hcast : (num : ℚ) ≤ (2 ^ f.precision * (den * 2 ^ scale.toNat) : Nat) := by
        push_cast at hbelow ⊢
        linarith
      exact_mod_cast hcast
    · rename_i hs
      rw [show scale.toNat = 0 by omega, Nat.pow_zero, Nat.cast_one, mul_one_div,
        div_mul_eq_mul_div, lt_div_iff₀ (by positivity)] at hbelow
      refine nearest_le hd ?_
      have hcast : ((num * 2 ^ (-scale).toNat : Nat) : ℚ) ≤ (2 ^ f.precision * den : Nat) := by
        push_cast at hbelow ⊢
        linarith
      exact_mod_cast hcast
  generalize (if 0 ≤ scale then nearest num (den * 2 ^ scale.toNat)
      else nearest (num * 2 ^ (-scale).toNat) den) = rounded at h hle
  split at h
  · split at h
    · cases h
    · cases h
      exact ⟨Nat.pow_lt_pow_right (by decide) (by omega), by omega⟩
  · split at h
    · cases h
    · cases h
      exact ⟨by omega, by omega⟩

end Format

namespace Binary64

variable {negative : Bool} {field part m : Nat} {q : Int}

/-! ## Fields -/

/-- The fields that a number is made of. -/
theorem fields_ofFields (hfield : field < 2048) (hpart : part < 2 ^ 52) :
    (ofFields negative field part).isNegative = negative ∧
      (ofFields negative field part).exponentField = field ∧
      (ofFields negative field part).fraction = part := by
  have hbits : (ofFields negative field part).bits.toNat =
      (if negative then 2 ^ 63 else 0) + field * 2 ^ 52 + part := by
    rw [ofFields, UInt64.toNat_ofNat']
    apply Nat.mod_eq_of_lt
    split <;> omega
  simp only [isNegative, exponentField, fraction, hbits]
  cases negative
  · simp only [Bool.false_eq_true, if_false, decide_eq_false_iff_not]
    omega
  · simp only [if_true, decide_eq_true_eq]
    omega

/-- The parts of a normal number. -/
theorem parts_ofScaled (hlow : 2 ^ 52 ≤ m) (hhigh : m < 2 ^ 53) (hleast : -1074 ≤ q)
    (hgreatest : q ≤ 971) :
    (ofScaled negative m q).isNegative = negative ∧ (ofScaled negative m q).significand = m ∧
      (ofScaled negative m q).scale = q ∧ (ofScaled negative m q).isFinite = true := by
  obtain ⟨hsign, hfield, hpart⟩ := @fields_ofFields negative (q + 1075).toNat (m - 2 ^ 52)
    (by omega) (by omega)
  rw [ofScaled, if_neg (by omega)]
  refine ⟨hsign, ?_, ?_, ?_⟩
  · rw [significand, hfield, hpart, if_neg (by omega)]
    omega
  · rw [scale, hfield]
    omega
  · rw [isFinite, hfield]
    simp only [bne_iff_ne, ne_eq]
    omega

/-! ## 32 bits -/

/-- A pattern of 32 bits made of a sign, an exponent and a fraction. -/
def singleBits (negative : Bool) (field part : Nat) : UInt32 :=
  UInt32.ofNat ((if negative then 2 ^ 31 else 0) + field * 2 ^ 23 + part)

theorem ofBinary32_bits (hfield : field < 256) (hpart : part < 2 ^ 23) :
    ofBinary32 (singleBits negative field part) =
      if field = 255 then
        if part = 0 then infinity negative
        else ofFields negative 2047 (2 ^ 51 + part % 2 ^ 22 * 2 ^ 29)
      else if 150 ≤ field then
        ofRatio negative ((if field = 0 then part else 2 ^ 23 + part) * 2 ^ (field - 150)) 1
      else
        ofRatio negative (if field = 0 then part else 2 ^ 23 + part) (2 ^ (150 - max field 1)) := by
  have hbits : (singleBits negative field part).toNat =
      (if negative then 2 ^ 31 else 0) + field * 2 ^ 23 + part := by
    rw [singleBits, UInt32.toNat_ofNat']
    apply Nat.mod_eq_of_lt
    split <;> omega
  have hnegative : decide (2 ^ 31 ≤ (singleBits negative field part).toNat) = negative := by
    rw [hbits]
    cases negative
    · simp only [Bool.false_eq_true, if_false, decide_eq_false_iff_not]
      omega
    · simp only [if_true, decide_eq_true_eq]
      omega
  have hexponent : (singleBits negative field part).toNat / 2 ^ 23 % 2 ^ 8 = field := by
    rw [hbits]
    split <;> omega
  have hrest : (singleBits negative field part).toNat % 2 ^ 23 = part := by
    rw [hbits]
    split <;> omega
  simp only [ofBinary32, hnegative, hexponent, hrest]

/-- Infinity and what is no number are kept, as long as the latter is quiet. -/
theorem toBinary32_special (hquiet : part = 0 ∨ 2 ^ 22 ≤ part) (hpart : part < 2 ^ 23) :
    toBinary32 (ofBinary32 (singleBits negative 255 part)) = singleBits negative 255 part := by
  rw [ofBinary32_bits (by decide) hpart, if_pos rfl]
  split
  · rename_i hzero
    subst hzero
    cases negative <;> rfl
  · rename_i hnonzero
    obtain ⟨hsign, hfield, hrest⟩ := @fields_ofFields negative 2047
      (2 ^ 51 + part % 2 ^ 22 * 2 ^ 29) (by decide) (by omega)
    have hnan : (ofFields negative 2047 (2 ^ 51 + part % 2 ^ 22 * 2 ^ 29)).isNaN = true := by
      rw [isNaN, hfield, hrest]
      simp only [beq_self_eq_true, Bool.true_and, bne_iff_ne, ne_eq]
      omega
    rw [toBinary32, if_pos hnan, hsign, hrest, singleBits]
    congr 1
    omega

/-- The number of a format that a significand and a scale of another one are worth. -/
theorem round_rescaled {f : Format} {m' : Nat} {q' : Int} (hprecision : 0 < f.precision)
    (hpos : 0 < m) (hless : m < 2 ^ f.precision) (hleast : f.leastScale ≤ q)
    (hgreatest : q ≤ f.greatestScale)
    (hnormal : 2 ^ (f.precision - 1) ≤ m ∨ q = f.leastScale)
    (hv : (m' : ℚ) * 2 ^ q' = m * 2 ^ q) :
    (if 0 ≤ q' then f.round (m' * 2 ^ q'.toNat) 1 else f.round m' (2 ^ (-q').toNat)) =
      some (m, q) := by
  rw [two_zpow q'] at hv
  split
  · refine Format.round_exact (by decide) hprecision hpos hless hleast hgreatest hnormal ?_
    rw [← hv, show (-q').toNat = 0 by omega]
    push_cast
    ring
  · refine Format.round_exact (Nat.pow_pos (by decide)) hprecision hpos hless hleast hgreatest
      hnormal ?_
    rw [← hv, show q'.toNat = 0 by omega]
    push_cast
    ring

/-- The significand of a number with at most 24 digits, shifted to 53. -/
theorem shifted_significand (hpos : 0 < m) (hless : m < 2 ^ 24) :
    ∃ k ≤ 52, 2 ^ 52 ≤ m * 2 ^ k ∧ m * 2 ^ k < 2 ^ 53 := by
  have hlow := Nat.log2_self_le hpos.ne'
  have hhigh := Nat.lt_log2_self (n := m)
  have hlog : m.log2 < 24 := by
    rw [← Nat.pow_lt_pow_iff_right (show 1 < 2 by decide)]
    omega
  have hk : 0 < 2 ^ (52 - m.log2) := Nat.pow_pos (by decide)
  refine ⟨52 - m.log2, by omega, ?_, ?_⟩
  · calc 2 ^ 52 = 2 ^ m.log2 * 2 ^ (52 - m.log2) := by
          rw [← Nat.pow_add]
          congr 1
          omega
      _ ≤ m * 2 ^ (52 - m.log2) := Nat.mul_le_mul_right _ hlow
  · calc m * 2 ^ (52 - m.log2) < 2 ^ (m.log2 + 1) * 2 ^ (52 - m.log2) :=
          Nat.mul_lt_mul_of_pos_right hhigh hk
      _ = 2 ^ 53 := by
          rw [← Nat.pow_add]
          congr 1
          omega

/-- A number of the 32-bit format is cut to its significand and scale. -/
theorem toBinary32_ofScaled {num den : Nat} (hd : 0 < den) (hpos : 0 < m) (hless : m < 2 ^ 24)
    (hleast : -149 ≤ q) (hgreatest : q ≤ 104) (hnormal : 2 ^ 23 ≤ m ∨ q = -149)
    (hv : (num : ℚ) / den = m * 2 ^ q) :
    toBinary32 (ofRatio negative num den) =
      if m < 2 ^ 23 then singleBits negative 0 m
      else singleBits negative (q + 150).toNat (m - 2 ^ 23) := by
  obtain ⟨k, hk, hlow, hhigh⟩ := shifted_significand hpos hless
  have hvalue : ((m * 2 ^ k : Nat) : ℚ) * 2 ^ (q - k) = m * 2 ^ q := by
    rw [zpow_sub₀ (by norm_num), zpow_natCast]
    push_cast
    field_simp
  have hround : Format.double.round num den = some (m * 2 ^ k, q - k) :=
    Format.round_exact hd (by decide) (by omega) hhigh (show (-1074 : Int) ≤ q - k by omega)
      (show q - k ≤ (971 : Int) by omega) (.inl hlow) (by rw [hv, hvalue])
  obtain ⟨hsign, hsignificand, hscale, hfinite⟩ :=
    @parts_ofScaled negative (m * 2 ^ k) (q - k) hlow hhigh (by omega) (by omega)
  have hsingle : (if 0 ≤ q - k then
      Format.single.round (m * 2 ^ k * 2 ^ (q - (k : Int)).toNat) 1
      else Format.single.round (m * 2 ^ k) (2 ^ (-(q - (k : Int))).toNat)) = some (m, q) :=
    round_rescaled (by decide) hpos hless hleast hgreatest hnormal hvalue
  rw [ofRatio, hround]
  simp only
  generalize ofScaled negative (m * 2 ^ k) (q - k) = x at *
  have hexponent : x.exponentField ≠ 2047 := by simpa [isFinite] using hfinite
  rw [toBinary32, if_neg (by simp [isNaN, hexponent]), if_neg (by simp [isInfinite, hexponent])]
  simp only [hsign, hsignificand, hscale, hsingle, singleBits]
  split
  · simp
  · rfl

/-- A finite pattern is kept. -/
theorem toBinary32_finite (hfield : field < 255) (hpart : part < 2 ^ 23) :
    toBinary32 (ofBinary32 (singleBits negative field part)) = singleBits negative field part := by
  rw [ofBinary32_bits (by omega) hpart, if_neg (by omega)]
  by_cases hzero : field = 0 ∧ part = 0
  · obtain ⟨rfl, rfl⟩ := hzero
    cases negative <;> rfl
  have hpos : 0 < if field = 0 then part else 2 ^ 23 + part := by
    split <;> omega
  have hless : (if field = 0 then part else 2 ^ 23 + part) < 2 ^ 24 := by
    split <;> omega
  have hnormal : 2 ^ 23 ≤ (if field = 0 then part else 2 ^ 23 + part) ∨
      ((max field 1 : Nat) : Int) - 150 = -149 := by
    split <;> omega
  have hbits : (if (if field = 0 then part else 2 ^ 23 + part) < 2 ^ 23 then
      singleBits negative 0 (if field = 0 then part else 2 ^ 23 + part)
      else singleBits negative (((max field 1 : Nat) : Int) - 150 + 150).toNat
        ((if field = 0 then part else 2 ^ 23 + part) - 2 ^ 23)) = singleBits negative field part := by
    by_cases hsub : field = 0
    · rw [if_pos hsub, if_pos hpart, hsub]
    · rw [if_neg hsub, if_neg (by omega), Nat.add_sub_cancel_left]
      congr 1
      omega
  rw [← hbits]
  generalize (if field = 0 then part else 2 ^ 23 + part) = m at hpos hless hnormal ⊢
  split
  · refine toBinary32_ofScaled (by decide) hpos hless (by omega) (by omega) hnormal ?_
    rw [show ((max field 1 : Nat) : Int) - 150 = ((field - 150 : Nat) : Int) by omega, zpow_natCast]
    push_cast
    ring
  · refine toBinary32_ofScaled (Nat.pow_pos (by decide)) hpos hless (by omega) (by omega) hnormal ?_
    rw [show ((max field 1 : Nat) : Int) - 150 = -((150 - max field 1 : Nat) : Int) by omega,
      zpow_neg, zpow_natCast]
    push_cast
    ring

/-- Numbers are cut to finite patterns, infinities and quiet patterns that are no numbers. -/
theorem toBinary32_bits (x : Binary64) :
    ∃ negative field part, x.toBinary32 = singleBits negative field part ∧ part < 2 ^ 23 ∧
      (field < 255 ∨ field = 255 ∧ (part = 0 ∨ 2 ^ 22 ≤ part)) := by
  unfold toBinary32
  simp only
  split
  · exact ⟨x.isNegative, 255, 2 ^ 22 + x.fraction / 2 ^ 29 % 2 ^ 22, rfl, by omega,
      .inr ⟨rfl, .inr (by omega)⟩⟩
  split
  · exact ⟨x.isNegative, 255, 0, rfl, by decide, .inr ⟨rfl, .inl rfl⟩⟩
  have hbounds (m : Nat) (q : Int) (h : (if 0 ≤ x.scale then
      Format.single.round (x.significand * 2 ^ x.scale.toNat) 1
      else Format.single.round x.significand (2 ^ (-x.scale).toNat)) = some (m, q)) :
      m < 2 ^ 24 ∧ q ≤ 104 := by
    split at h
    · exact Format.round_bounds (by decide) (by decide) (by decide) h
    · exact Format.round_bounds (Nat.pow_pos (by decide)) (by decide) (by decide) h
  split
  · exact ⟨x.isNegative, 255, 0, rfl, by decide, .inr ⟨rfl, .inl rfl⟩⟩
  · rename_i m q hround
    obtain ⟨hless, hgreatest⟩ := hbounds m q hround
    split
    · exact ⟨x.isNegative, 0, m, by rw [singleBits]; simp, by omega, .inl (by decide)⟩
    · exact ⟨x.isNegative, (q + 150).toNat, m - 2 ^ 23, rfl, by omega, .inl (by omega)⟩

/-- Cutting a number to 32 bits a second time changes nothing. -/
theorem toBinary32_ofBinary32 (x : Binary64) :
    toBinary32 (ofBinary32 x.toBinary32) = x.toBinary32 := by
  obtain ⟨negative, field, part, hbits, hpart, hfinite | ⟨rfl, hquiet⟩⟩ := toBinary32_bits x
  · rw [hbits]
    exact toBinary32_finite hfinite hpart
  · rw [hbits]
    exact toBinary32_special hquiet hpart

end Binary64
end AvroDocument
