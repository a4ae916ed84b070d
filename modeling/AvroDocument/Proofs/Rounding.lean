import AvroDocument.Binary64.Text
import Mathlib.Algebra.Order.Field.Power
import Mathlib.Data.Rat.Cast.Order
import Mathlib.Tactic.FieldSimp
import Mathlib.Tactic.Linarith
import Mathlib.Tactic.NormNum
import Mathlib.Tactic.Positivity
import Mathlib.Tactic.Ring

/-!
# AvroDocument.Proofs.Rounding

Ratios that round to a floating point number.

* `Binary64.Near`: the ratios in the interval around a number.
* `Format.round_near`: they round to it.
* `Binary64.ofDecimal_near`: so do decimals.
-/

namespace AvroDocument

/-! ## Powers -/

theorem zpow_eq_div {b : Nat} (hb : 0 < b) (e : Int) :
    (b : ℚ) ^ e = ((b ^ e.toNat : Nat) : ℚ) / ((b ^ (-e).toNat : Nat) : ℚ) := by
  have hne : (b : ℚ) ≠ 0 := by exact_mod_cast hb.ne'
  obtain h | h := Int.le_total 0 e
  · have hneg : (-e).toNat = 0 := by omega
    rw [hneg]
    obtain ⟨n, rfl⟩ := Int.eq_ofNat_of_zero_le h
    simp
  · have hpos : e.toNat = 0 := by omega
    rw [hpos]
    obtain ⟨n, hn⟩ := Int.eq_ofNat_of_zero_le (Int.neg_nonneg_of_nonpos h)
    obtain rfl : e = -(n : Int) := by omega
    simp

theorem two_zpow (e : Int) :
    (2 : ℚ) ^ e = ((2 ^ e.toNat : Nat) : ℚ) / ((2 ^ (-e).toNat : Nat) : ℚ) := by
  exact_mod_cast zpow_eq_div (show 0 < 2 by decide) e

theorem ten_zpow (e : Int) :
    (10 : ℚ) ^ e = ((10 ^ e.toNat : Nat) : ℚ) / ((10 ^ (-e).toNat : Nat) : ℚ) := by
  exact_mod_cast zpow_eq_div (show 0 < 10 by decide) e

theorem two_zpow_pos (e : Int) : (0 : ℚ) < 2 ^ e := zpow_pos (by norm_num) e

theorem zpow_two_succ (e : Int) : (2 : ℚ) ^ (e + 1) = 2 * 2 ^ e := by
  rw [zpow_add_one₀ (by norm_num), mul_comm]

/-- Beyond the greatest number. -/
theorem two_zpow_lt_ten_zpow : (2 : ℚ) ^ (1024 : Int) < 10 ^ (310 : Int) := by
  have hsquare : (2 : ℚ) ^ (512 : Int) = 2 ^ (256 : Int) * 2 ^ (256 : Int) := by
    rw [← zpow_add₀ (by norm_num)]
    rfl
  have hhalf : (2 : ℚ) ^ (512 : Int) < 10 ^ (155 : Int) := by
    rw [hsquare]
    norm_num
  have hboth := mul_lt_mul'' hhalf hhalf (by positivity) (by positivity)
  rwa [← zpow_add₀ (by norm_num), ← zpow_add₀ (by norm_num)] at hboth

/-- Under half of the least number. -/
theorem ten_zpow_lt_two_zpow : (10 : ℚ) ^ (-330 : Int) < 2 ^ (-1075 : Int) := by
  have hpart : (2 : ℚ) ^ (215 : Int) < 10 ^ (66 : Int) := by norm_num
  have hall := pow_lt_pow_left₀ hpart (by positivity) (show 5 ≠ 0 by decide)
  rw [← zpow_natCast, ← zpow_natCast, ← zpow_mul, ← zpow_mul] at hall
  rw [zpow_neg, zpow_neg]
  exact inv_strictAnti₀ (by positivity) hall

namespace Format

/-! ## Quotients -/

/-- The number that a quotient is nearest to; of two the even one. -/
theorem nearest_eq {num den m : Nat} (hd : 0 < den) (hl : 2 * (m * den) ≤ 2 * num + den)
    (hr : 2 * num ≤ 2 * (m * den) + den)
    (hodd : m % 2 = 1 → 2 * (m * den) < 2 * num + den ∧ 2 * num < 2 * (m * den) + den) :
    nearest num den = m := by
  have hdiv := Nat.div_add_mod num den
  have hrest := Nat.mod_lt num hd
  rw [Nat.mul_comm] at hdiv
  have hle : m ≤ num / den + 1 := by
    by_contra h
    have := Nat.mul_le_mul_right den (show num / den + 2 ≤ m by omega)
    rw [Nat.add_mul] at this
    omega
  have hge : num / den ≤ m := by
    by_contra h
    have := Nat.mul_le_mul_right den (show m + 1 ≤ num / den by omega)
    rw [Nat.add_mul] at this
    omega
  unfold nearest
  simp only
  obtain rfl | hup : m = num / den ∨ m = num / den + 1 := by omega
  · split
    · rfl
    · split
      · omega
      · split
        · rfl
        · have := hodd (by omega)
          omega
  · rw [hup] at hl hr hodd
    rw [Nat.add_mul] at hl hr hodd
    split
    · omega
    · split
      · exact hup.symm
      · split
        · have := hodd (by omega)
          omega
        · exact hup.symm

/-- The same for a ratio over a power of two, as it is rounded. -/
theorem nearest_scaled {num den m : Nat} (hd : 0 < den) (q : Int)
    (hl : ((m : ℚ) - 1 / 2) * 2 ^ q ≤ num / den) (hr : (num : ℚ) / den ≤ (m + 1 / 2) * 2 ^ q)
    (hodd : m % 2 = 1 →
      ((m : ℚ) - 1 / 2) * 2 ^ q < num / den ∧ (num : ℚ) / den < (m + 1 / 2) * 2 ^ q) :
    (if 0 ≤ q then nearest num (den * 2 ^ q.toNat) else nearest (num * 2 ^ (-q).toNat) den) = m := by
  have hform : (if 0 ≤ q then nearest num (den * 2 ^ q.toNat)
      else nearest (num * 2 ^ (-q).toNat) den) =
        nearest (num * 2 ^ (-q).toNat) (den * 2 ^ q.toNat) := by
    split
    · have hzero : (-q).toNat = 0 := by omega
      rw [hzero, Nat.pow_zero, Nat.mul_one]
    · have hzero : q.toNat = 0 := by omega
      rw [hzero, Nat.pow_zero, Nat.mul_one]
  have hup : 0 < 2 ^ q.toNat := Nat.pow_pos (by decide)
  have hdown : 0 < 2 ^ (-q).toNat := Nat.pow_pos (by decide)
  rw [two_zpow] at hl hr hodd
  rw [hform]
  generalize 2 ^ q.toNat = a at *
  generalize 2 ^ (-q).toNat = b at *
  have hd' : (0 : ℚ) < den := by exact_mod_cast hd
  have hb' : (0 : ℚ) < b := by exact_mod_cast hdown
  rw [mul_div_assoc', div_le_div_iff₀ hb' hd'] at hl
  rw [mul_div_assoc', div_le_div_iff₀ hd' hb'] at hr
  rw [mul_div_assoc', mul_div_assoc', div_lt_div_iff₀ hb' hd', div_lt_div_iff₀ hd' hb'] at hodd
  refine nearest_eq (Nat.mul_pos hd hup) ?_ ?_ ?_
  · have : (2 * (m * (den * a)) : ℚ) ≤ 2 * (num * b) + den * a := by linarith
    exact_mod_cast this
  · have : (2 * (num * b) : ℚ) ≤ 2 * (m * (den * a)) + den * a := by linarith
    exact_mod_cast this
  · intro h
    obtain ⟨hl', hr'⟩ := hodd h
    have h1 : (2 * (m * (den * a)) : ℚ) < 2 * (num * b) + den * a := by linarith
    have h2 : (2 * (num * b) : ℚ) < 2 * (m * (den * a)) + den * a := by linarith
    exact ⟨by exact_mod_cast h1, by exact_mod_cast h2⟩

/-! ## Logarithms -/

/-- Whether a power of two is at most a ratio, as it is decided. -/
theorem two_zpow_le_iff {num den : Nat} (hd : 0 < den) (e : Int) :
    (if 0 ≤ e then decide (den * 2 ^ e.toNat ≤ num)
      else decide (den ≤ num * 2 ^ (-e).toNat)) = true ↔ (2 : ℚ) ^ e ≤ num / den := by
  have hd' : (0 : ℚ) < den := by exact_mod_cast hd
  have hdown : 0 < 2 ^ (-e).toNat := Nat.pow_pos (by decide)
  have hdown' : (0 : ℚ) < (2 ^ (-e).toNat : Nat) := by exact_mod_cast hdown
  rw [two_zpow, div_le_div_iff₀ hdown' hd']
  split
  · have hzero : (-e).toNat = 0 := by omega
    rw [hzero, Nat.pow_zero, Nat.cast_one, mul_one, decide_eq_true_eq, mul_comm]
    exact_mod_cast Iff.rfl
  · have hzero : e.toNat = 0 := by omega
    rw [hzero, Nat.pow_zero, Nat.cast_one, one_mul, decide_eq_true_eq]
    exact_mod_cast Iff.rfl

/-- The powers of two around a ratio. -/
theorem ratioLog_spec {num den : Nat} (hn : 0 < num) (hd : 0 < den) :
    (2 : ℚ) ^ ratioLog num den ≤ num / den ∧ (num : ℚ) / den < 2 ^ (ratioLog num den + 1) := by
  have hn' : (0 : ℚ) < num := by exact_mod_cast hn
  have hd' : (0 : ℚ) < den := by exact_mod_cast hd
  have hnum : (2 : ℚ) ^ (num.log2 : Int) ≤ num ∧ (num : ℚ) < 2 ^ ((num.log2 : Int) + 1) := by
    have h1 := Nat.log2_self_le hn.ne'
    have h2 := Nat.lt_log2_self (n := num)
    exact ⟨by exact_mod_cast h1, by exact_mod_cast h2⟩
  have hden : (2 : ℚ) ^ (den.log2 : Int) ≤ den ∧ (den : ℚ) < 2 ^ ((den.log2 : Int) + 1) := by
    have h1 := Nat.log2_self_le hd.ne'
    have h2 := Nat.lt_log2_self (n := den)
    exact ⟨by exact_mod_cast h1, by exact_mod_cast h2⟩
  have hlow : (2 : ℚ) ^ ((num.log2 : Int) - den.log2 - 1) ≤ num / den := by
    rw [le_div_iff₀ hd']
    calc (2 : ℚ) ^ ((num.log2 : Int) - den.log2 - 1) * den
        ≤ 2 ^ ((num.log2 : Int) - den.log2 - 1) * 2 ^ ((den.log2 : Int) + 1) :=
          mul_le_mul_of_nonneg_left hden.2.le (two_zpow_pos _).le
      _ = 2 ^ (num.log2 : Int) := by
          rw [← zpow_add₀ (by norm_num)]
          congr 1
          omega
      _ ≤ num := hnum.1
  have hhigh : (num : ℚ) / den < 2 ^ ((num.log2 : Int) - den.log2 + 1) := by
    rw [div_lt_iff₀ hd']
    calc (num : ℚ) < 2 ^ ((num.log2 : Int) + 1) := hnum.2
      _ = 2 ^ ((num.log2 : Int) - den.log2 + 1) * 2 ^ (den.log2 : Int) := by
          rw [← zpow_add₀ (by norm_num)]
          congr 1
          omega
      _ ≤ 2 ^ ((num.log2 : Int) - den.log2 + 1) * den :=
          mul_le_mul_of_nonneg_left hden.1 (two_zpow_pos _).le
  have hreached := @two_zpow_le_iff num den hd ((num.log2 : Int) - den.log2)
  unfold ratioLog
  by_cases h : (2 : ℚ) ^ ((num.log2 : Int) - den.log2) ≤ num / den
  · simp only [hreached.mpr h, if_true]
    exact ⟨h, hhigh⟩
  · rw [← hreached, Bool.not_eq_true] at h
    simp only [h, Bool.false_eq_true, if_false, Int.sub_add_cancel]
    exact ⟨hlow, not_le.mp fun hle => by rw [hreached.mpr hle] at h; cases h⟩

theorem ratioLog_eq {num den : Nat} (hn : 0 < num) (hd : 0 < den) {e : Int}
    (hl : (2 : ℚ) ^ e ≤ num / den) (hr : (num : ℚ) / den < 2 ^ (e + 1)) :
    ratioLog num den = e := by
  obtain ⟨hlow, hhigh⟩ := ratioLog_spec hn hd
  have h1 : e < ratioLog num den + 1 :=
    (zpow_lt_zpow_iff_right₀ (by norm_num : (1 : ℚ) < 2)).mp (lt_of_le_of_lt hl hhigh)
  have h2 : ratioLog num den < e + 1 :=
    (zpow_lt_zpow_iff_right₀ (by norm_num : (1 : ℚ) < 2)).mp (lt_of_le_of_lt hlow hr)
  omega

/-- Rounding when the scale and the significand before a carry are known. -/
theorem round_eq {f : Format} {num den m : Nat} {q : Int} (hn : 0 < num)
    (hq : max f.leastScale (ratioLog num den - ((f.precision : Int) - 1)) = q)
    (hm : (if 0 ≤ q then nearest num (den * 2 ^ q.toNat)
      else nearest (num * 2 ^ (-q).toNat) den) = m) :
    f.round num den =
      if m = 2 ^ f.precision then
        if f.greatestScale < q + 1 then none else some (2 ^ (f.precision - 1), q + 1)
      else if f.greatestScale < q then none else some (m, q) := by
  rw [round, if_neg hn.ne']
  simp only [hq, hm]
  by_cases h : m = 2 ^ f.precision
  · rw [if_pos h, if_pos h]
  · rw [if_neg h, if_neg h]

theorem round_double {num den m : Nat} {q : Int} (hn : 0 < num)
    (hq : max (-1074) (ratioLog num den - 52) = q)
    (hm : (if 0 ≤ q then nearest num (den * 2 ^ q.toNat)
      else nearest (num * 2 ^ (-q).toNat) den) = m) :
    double.round num den =
      if m = 2 ^ 53 then if 971 < q + 1 then none else some (2 ^ 52, q + 1)
      else if 971 < q then none else some (m, q) :=
  round_eq hn hq hm

end Format

/-! ## Rounding -/

namespace Binary64

/-- The significand and scale of a positive number. -/
structure Canonical (m : Nat) (q : Int) : Prop where
  pos : 0 < m
  less : m < 2 ^ 53
  least : -1074 ≤ q
  greatest : q ≤ 971
  normal : 2 ^ 52 ≤ m ∨ q = -1074

/-- Four times the lower end of the interval around a significand. -/
def lowEnd (m : Nat) (q : Int) : Nat :=
  if m = 2 ^ 52 && decide (-1074 < q) then 4 * m - 1 else 4 * m - 2

/-- The ratios around a number: no other is nearer, and those at the ends belong to the even one. -/
structure Near (m : Nat) (q : Int) (v : ℚ) : Prop where
  low : (lowEnd m q : ℚ) / 4 * 2 ^ q ≤ v
  high : v ≤ (m + 1 / 2) * 2 ^ q
  odd : m % 2 = 1 → (lowEnd m q : ℚ) / 4 * 2 ^ q < v ∧ v < (m + 1 / 2) * 2 ^ q

variable {m num den : Nat} {q : Int}

theorem lowEnd_ge (hc : Canonical m q) : (m : ℚ) - 1 / 2 ≤ (lowEnd m q : ℚ) / 4 := by
  have hpos := hc.pos
  have h : 4 * m ≤ lowEnd m q + 2 := by
    unfold lowEnd
    split <;> omega
  have h' : (4 * m : ℚ) ≤ lowEnd m q + 2 := by exact_mod_cast h
  linarith

theorem Near.pos (hc : Canonical m q) {v : ℚ} (hv : Near m q v) : 0 < v := by
  have hm : (1 : ℚ) ≤ m := by exact_mod_cast hc.pos
  have hlow := lowEnd_ge hc
  have hq := two_zpow_pos q
  exact lt_of_lt_of_le (mul_pos (by linarith) hq) hv.low

/-- Ratios around a number round to it. -/
theorem round_near (hc : Canonical m q) (hd : 0 < den) (hv : Near m q ((num : ℚ) / den)) :
    Format.double.round num den = some (m, q) := by
  have hd' : (0 : ℚ) < den := by exact_mod_cast hd
  have hn : 0 < num := by
    have := hv.pos hc
    rw [div_pos_iff_of_pos_right hd'] at this
    exact_mod_cast this
  have hq := two_zpow_pos q
  have hless : (m : ℚ) + 1 ≤ 2 ^ 53 := by exact_mod_cast hc.less
  have hbelow : (num : ℚ) / den < 2 ^ (q + 53) := by
    refine lt_of_le_of_lt hv.high ?_
    rw [add_comm q, zpow_add₀ (by norm_num)]
    exact mul_lt_mul_of_pos_right (by norm_num at hless ⊢; linarith) hq
  have hfine : ((m : ℚ) - 1 / 2) * 2 ^ q ≤ (lowEnd m q : ℚ) / 4 * 2 ^ q :=
    mul_le_mul_of_nonneg_right (lowEnd_ge hc) hq.le
  have hnearest := Format.nearest_scaled hd q (le_trans hfine hv.low) hv.high
    fun hodd => ⟨lt_of_le_of_lt hfine (hv.odd hodd).1, (hv.odd hodd).2⟩
  -- Unless the ratio lies under the power of two that the number is, its scale is that of the number.
  have hscale (h : max (-1074) (Format.ratioLog num den - 52) = q) :
      Format.double.round num den = some (m, q) := by
    have := hc.less
    have := hc.greatest
    rw [Format.round_double hn h hnearest, if_neg (by omega), if_neg (by omega)]
  by_cases hreach : (2 : ℚ) ^ (q + 52) ≤ num / den
  · have hlog := Format.ratioLog_eq hn hd hreach (by rwa [Int.add_assoc])
    have := hc.least
    exact hscale (by omega)
  rw [not_le] at hreach
  obtain hleast | hleast := hc.least.eq_or_lt
  · obtain ⟨hlow, -⟩ := Format.ratioLog_spec hn hd
    have : Format.ratioLog num den < q + 52 :=
      (zpow_lt_zpow_iff_right₀ (by norm_num : (1 : ℚ) < 2)).mp (lt_of_le_of_lt hlow hreach)
    exact hscale (by omega)
  · have hnormal : 2 ^ 52 ≤ m := by
      have := hc.normal
      omega
    have hsplit : (2 : ℚ) ^ (q + 52) = 2 ^ 52 * 2 ^ q := by
      rw [add_comm, zpow_add₀ (by norm_num)]
      norm_num
    have hhalf : (2 : ℚ) ^ q = 2 * 2 ^ (q - 1) := by
      rw [← zpow_two_succ, Int.sub_add_cancel]
    -- The number is the power of two, and the ratio lies in the finer half of its interval.
    have hpower : m = 2 ^ 52 := by
      have hlow := lt_of_le_of_lt (le_trans hfine hv.low) hreach
      rw [hsplit, mul_lt_mul_iff_left₀ hq] at hlow
      have : (m : ℚ) < 2 ^ 52 + 1 := by linarith
      have : m < 2 ^ 52 + 1 := by exact_mod_cast this
      omega
    have hfour : (lowEnd m q : ℚ) = 2 ^ 54 - 1 := by
      have : lowEnd m q = 2 ^ 54 - 1 := by
        rw [lowEnd, hpower, if_pos (by simpa using hleast)]
        rfl
      rw [this]
      norm_num
    have hquarter := hv.low
    rw [hfour, hhalf] at hquarter
    have hq' := two_zpow_pos (q - 1)
    rw [hsplit, hhalf] at hreach
    have hlog : Format.ratioLog num den = q + 51 := by
      refine Format.ratioLog_eq hn hd ?_ ?_
      · rw [show q + 51 = 52 + (q - 1) by omega, zpow_add₀ (by norm_num)]
        norm_num at hquarter ⊢
        linarith
      · rw [show q + 51 + 1 = 53 + (q - 1) by omega, zpow_add₀ (by norm_num)]
        norm_num at hreach ⊢
        linarith
    have hfiner := @Format.nearest_scaled num den (2 ^ 53) hd (q - 1)
      (by norm_num at hquarter ⊢; linarith) (by norm_num at hreach ⊢; linarith)
      (fun hodd => absurd hodd (by decide))
    have := hc.greatest
    rw [Format.round_double hn (by omega) hfiner, if_pos rfl, if_neg (by omega), Int.sub_add_cancel,
      hpower]

/-! ## Decimals -/

theorem lt_ten_pow_digitCount (n : Nat) : n < 10 ^ digitCount n :=
  (Nat.length_toDigits_le_iff (by decide) Nat.length_toDigits_pos).mp (Nat.le_refl _)

theorem digitCount_le {n k : Nat} (hk : 0 < k) (h : n < 10 ^ k) : digitCount n ≤ k :=
  (Nat.length_toDigits_le_iff (by decide) hk).mpr h

theorem ten_pow_le_of_digitCount {n : Nat} (h : 0 < n) : 10 ^ (digitCount n - 1) ≤ n := by
  obtain hmore | hone := Nat.lt_or_ge 1 (digitCount n)
  · by_contra hlt
    have hless : digitCount n ≤ digitCount n - 1 :=
      (Nat.length_toDigits_le_iff (by decide) (by omega)).mpr (by omega)
    omega
  · rw [show digitCount n - 1 = 0 by omega]
    exact h

theorem one_le_digitCount (n : Nat) : 1 ≤ digitCount n := Nat.length_toDigits_pos

theorem digitCount_mul_ten_pow {c : Nat} (hc : 0 < c) (k : Nat) :
    digitCount (c * 10 ^ k) = digitCount c + k := by
  have hone := one_le_digitCount c
  apply le_antisymm
  · refine digitCount_le (by omega) ?_
    rw [Nat.pow_add]
    exact Nat.mul_lt_mul_of_pos_right (lt_ten_pow_digitCount c) (Nat.pow_pos (by decide))
  · have hpower : 10 ^ (digitCount c - 1 + k) < 10 ^ digitCount (c * 10 ^ k) :=
      calc 10 ^ (digitCount c - 1 + k) = 10 ^ (digitCount c - 1) * 10 ^ k := Nat.pow_add ..
        _ ≤ c * 10 ^ k := Nat.mul_le_mul_right _ (ten_pow_le_of_digitCount hc)
        _ < 10 ^ digitCount (c * 10 ^ k) := lt_ten_pow_digitCount _
    have := (Nat.pow_lt_pow_iff_right (by decide : 1 < 10)).mp hpower
    omega

/-- The powers of ten around a decimal. -/
theorem ten_zpow_digitCount {n : Nat} (h : 0 < n) (e : Int) :
    (10 : ℚ) ^ (digitCount n + e - 1) ≤ n * 10 ^ e ∧ (n : ℚ) * 10 ^ e < 10 ^ (digitCount n + e) := by
  have hten := zpow_pos (by norm_num : (0 : ℚ) < 10) e
  have hone := one_le_digitCount n
  have hlow : (10 : ℚ) ^ (digitCount n - 1 : Nat) ≤ n := by
    exact_mod_cast ten_pow_le_of_digitCount h
  have hhigh : (n : ℚ) < 10 ^ digitCount n := by exact_mod_cast lt_ten_pow_digitCount n
  constructor
  · have hsum : (digitCount n : Int) + e - 1 = ((digitCount n - 1 : Nat) : Int) + e := by omega
    rw [hsum, zpow_add₀ (by norm_num), zpow_natCast]
    exact mul_le_mul_of_nonneg_right hlow hten.le
  · rw [zpow_add₀ (by norm_num), zpow_natCast]
    exact mul_lt_mul_of_pos_right hhigh hten

/-- The first digit of a decimal around a number stands neither far in front of the point nor far behind
it. -/
theorem Near.place (hc : Canonical m q) {c : Nat} {e : Int} (hv : Near m q (c * 10 ^ e)) :
    0 < c ∧ (digitCount c : Int) + e ≤ 310 ∧ -330 ≤ (digitCount c : Int) + e := by
  have hten := zpow_pos (by norm_num : (0 : ℚ) < 10) e
  have hpos : 0 < c := by
    have := hv.pos hc
    rw [mul_pos_iff_of_pos_right hten] at this
    exact_mod_cast this
  obtain ⟨hlow, hhigh⟩ := ten_zpow_digitCount hpos e
  refine ⟨hpos, ?_, ?_⟩
  · have hq := two_zpow_pos q
    have hm : (m : ℚ) + 1 ≤ 2 ^ 53 := by exact_mod_cast hc.less
    have hscale : (2 : ℚ) ^ q ≤ 2 ^ (971 : Int) := zpow_le_zpow_right₀ (by norm_num) hc.greatest
    have : (10 : ℚ) ^ (digitCount c + e - 1) < 10 ^ (310 : Int) := by
      calc (10 : ℚ) ^ (digitCount c + e - 1) ≤ c * 10 ^ e := hlow
        _ ≤ (m + 1 / 2) * 2 ^ q := hv.high
        _ ≤ 2 ^ (53 : Int) * 2 ^ (971 : Int) :=
            mul_le_mul (by norm_num at hm ⊢; linarith) hscale hq.le (by positivity)
        _ = 2 ^ (1024 : Int) := by
            rw [← zpow_add₀ (by norm_num)]
            rfl
        _ < 10 ^ (310 : Int) := two_zpow_lt_ten_zpow
    have := (zpow_lt_zpow_iff_right₀ (by norm_num : (1 : ℚ) < 10)).mp this
    omega
  · have hm : (1 : ℚ) ≤ m := by exact_mod_cast hc.pos
    have hscale : (2 : ℚ) ^ (-1074 : Int) ≤ 2 ^ q := zpow_le_zpow_right₀ (by norm_num) hc.least
    have : (10 : ℚ) ^ (-330 : Int) < 10 ^ (digitCount c + e) := by
      calc (10 : ℚ) ^ (-330 : Int) < 2 ^ (-1075 : Int) := ten_zpow_lt_two_zpow
        _ = 1 / 2 * 2 ^ (-1074 : Int) := by
            rw [show (-1074 : Int) = -1075 + 1 from rfl, zpow_two_succ]
            ring
        _ ≤ (lowEnd m q : ℚ) / 4 * 2 ^ q :=
            mul_le_mul (le_trans (by linarith) (lowEnd_ge hc)) hscale (two_zpow_pos _).le
              (by positivity)
        _ ≤ c * 10 ^ e := hv.low
        _ < 10 ^ (digitCount c + e) := hhigh
    have := (zpow_lt_zpow_iff_right₀ (by norm_num : (1 : ℚ) < 10)).mp this
    omega

/-- Decimals around a number are read as it. -/
theorem ofDecimal_near (hc : Canonical m q) {c : Nat} {e : Int} (hv : Near m q (c * 10 ^ e))
    (negative : Bool) : ofDecimal negative c e = ofScaled negative m q := by
  obtain ⟨hpos, hhigh, hlow⟩ := hv.place hc
  have hratio {num den : Nat} (hd : 0 < den) (heq : (num : ℚ) / den = c * 10 ^ e) :
      ofRatio negative num den = ofScaled negative m q := by
    rw [ofRatio, round_near hc hd (heq ▸ hv)]
  rw [ofDecimal, if_neg hpos.ne']
  simp only
  rw [if_neg (by omega), if_neg (by omega)]
  split
  · refine hratio (by decide) ?_
    rw [ten_zpow, show (-e).toNat = 0 by omega]
    push_cast
    ring
  · refine hratio (Nat.pow_pos (by decide)) ?_
    rw [ten_zpow, show e.toNat = 0 by omega]
    push_cast
    ring

/-! ## Parts -/

/-- A number is made of its fields. -/
theorem ofFields_parts (x : Binary64) :
    ofFields x.isNegative x.exponentField x.fraction = x := by
  have hbits := x.bits.toNat_lt
  have hparts : x.bits.toNat =
      (if x.isNegative then 2 ^ 63 else 0) + x.exponentField * 2 ^ 52 + x.fraction := by
    unfold isNegative exponentField fraction
    split
    · rename_i h
      rw [decide_eq_true_eq] at h
      omega
    · rename_i h
      rw [decide_eq_true_eq] at h
      omega
  rw [ofFields, ← hparts]
  exact congrArg Binary64.mk (UInt64.ofNat_toNat)

theorem infinity_parts {x : Binary64} (h : x.isInfinite = true) : infinity x.isNegative = x := by
  obtain ⟨hfield, hfraction⟩ : x.exponentField = 2047 ∧ x.fraction = 0 := by
    simpa [isInfinite] using h
  have hx := ofFields_parts x
  rwa [hfield, hfraction] at hx

theorem zero_parts {x : Binary64} (h : x.isZero = true) : zero x.isNegative = x := by
  obtain ⟨hfield, hfraction⟩ : x.exponentField = 0 ∧ x.fraction = 0 := by
    simpa [isZero] using h
  have hx := ofFields_parts x
  rwa [hfield, hfraction] at hx

/-- A finite number other than zero is made of its parts. -/
theorem ofScaled_parts {x : Binary64} (hf : x.isFinite = true) (hz : x.isZero = false) :
    Canonical x.significand x.scale ∧
      ofScaled x.isNegative x.significand x.scale = x := by
  have hfield : x.exponentField ≠ 2047 := by simpa [isFinite] using hf
  have hfield' : x.exponentField < 2048 := Nat.mod_lt _ (by decide)
  have hfraction : x.fraction < 2 ^ 52 := Nat.mod_lt _ (by decide)
  have hnonzero : x.exponentField = 0 → x.fraction ≠ 0 := by
    intro h
    simpa [isZero, h] using hz
  have hfields := ofFields_parts x
  unfold significand scale
  by_cases hsub : x.exponentField = 0
  · have := hnonzero hsub
    rw [if_pos hsub, hsub]
    refine ⟨⟨by omega, by omega, by decide, by decide, .inr rfl⟩, ?_⟩
    rw [ofScaled, if_pos hfraction, ← hsub]
    exact hfields
  · rw [if_neg hsub]
    refine ⟨⟨by omega, by omega, by omega, by omega, .inl (by omega)⟩, ?_⟩
    rw [ofScaled, if_neg (by omega), Nat.add_sub_cancel_left]
    have hscale : (((max x.exponentField 1 : Nat) : Int) - 1075 + 1075).toNat = x.exponentField := by
      omega
    rw [hscale]
    exact hfields

end Binary64
end AvroDocument
