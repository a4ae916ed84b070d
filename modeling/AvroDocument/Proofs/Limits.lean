import AvroDocument.Decimal
import AvroDocument.Proofs.Shortest
import AvroDocument.Proofs.SinglePrecision

/-!
# AvroDocument.Proofs.Limits

Numbers that are too large for a conversion.

* `Binary64.ofInt?_eq_none`: the integers that have no floating point number.
* `Decimal.rescales`: what becomes of a decimal that gets another exponent.
* `Decimal.quantize?_eq_none`, `Decimal.quantize?_exact_iff`: when decimal arithmetic has too few digits
  for it, and when it keeps its value.
-/

namespace AvroDocument

namespace Format

variable {den limit : Nat}

/-- A quotient is rounded to an even number or beyond from half below it on. -/
theorem le_nearest_iff (num : Nat) (hd : 0 < den) (heven : limit % 2 = 0) :
    limit ≤ nearest num den ↔ 2 * (limit * den) ≤ 2 * num + den := by
  have hdiv := Nat.div_add_mod num den
  have hrest := Nat.mod_lt num hd
  have hnearest := Binary64.nearest_cases num den
  rw [Nat.mul_comm] at hdiv
  obtain hlow | rfl | hhigh :
      limit ≤ num / den ∨ limit = num / den + 1 ∨ num / den + 2 ≤ limit := by
    omega
  · have hmul := Nat.mul_le_mul_right den hlow
    omega
  · -- The quotient below is odd, so a tie goes up.
    rw [Nat.add_mul]
    unfold nearest
    simp only
    split_ifs <;> omega
  · have hmul := Nat.mul_le_mul_right den hhigh
    rw [Nat.add_mul] at hmul
    omega

/-- The powers of two around a positive integer. -/
theorem ratioLog_nat {n : Nat} (hn : 0 < n) :
    ∃ k : Nat, ratioLog n 1 = k ∧ 2 ^ k ≤ n ∧ n < 2 ^ (k + 1) := by
  obtain ⟨hlow, hhigh⟩ := ratioLog_spec hn Nat.one_pos
  rw [Nat.cast_one, div_one] at hlow hhigh
  have hone : (2 : ℚ) ^ (0 : Int) ≤ n := by
    rw [zpow_zero]
    exact_mod_cast hn
  have hpos : (0 : Int) < ratioLog n 1 + 1 :=
    (zpow_lt_zpow_iff_right₀ (by norm_num : (1 : ℚ) < 2)).mp (lt_of_le_of_lt hone hhigh)
  obtain ⟨k, hk⟩ := Int.eq_ofNat_of_zero_le (show 0 ≤ ratioLog n 1 by omega)
  rw [hk] at hlow hhigh
  exact ⟨k, hk, by exact_mod_cast hlow, by exact_mod_cast hhigh⟩

section round

variable {f : Format} {g k n : Nat}

/-- Below the last power of two nothing is too large. -/
theorem round_below (hn : 0 < n) (hlog : ratioLog n 1 = k) (hleast : f.leastScale ≤ 0)
    (hgreatest : f.greatestScale = (g : Int) + 1) (hless : k < f.precision + g) :
    (f.round n 1).isSome = true := by
  rw [round_eq hn rfl rfl, hlog, hgreatest]
  generalize hq : max f.leastScale ((k : Int) - ((f.precision : Int) - 1)) = q
  have hcarried : ¬ (g : Int) + 1 < q + 1 := by omega
  have hkept : ¬ (g : Int) + 1 < q := by omega
  rw [if_neg hcarried, if_neg hkept]
  split_ifs <;> rfl

/-- From the next one on everything is. -/
theorem round_above (hn : 0 < n) (hlog : ratioLog n 1 = k)
    (hgreatest : f.greatestScale = (g : Int) + 1) (hmore : f.precision + g < k) :
    f.round n 1 = none := by
  rw [round_eq hn rfl rfl, hlog, hgreatest]
  generalize hq : max f.leastScale ((k : Int) - ((f.precision : Int) - 1)) = q
  have hcarried : (g : Int) + 1 < q + 1 := by omega
  have hkept : (g : Int) + 1 < q := by omega
  rw [if_pos hcarried, if_pos hkept, ite_self]

/-- Between the two a number is too large if it is rounded up to the next one. -/
theorem round_last (hn : 0 < n) (hlog : ratioLog n 1 = (f.precision + g : Nat))
    (hprecision : 0 < f.precision) (hleast : f.leastScale ≤ 0)
    (hgreatest : f.greatestScale = (g : Int) + 1) (hhigh : n ≤ 2 ^ f.precision * 2 ^ (g + 1)) :
    f.round n 1 = none ↔ 2 * (2 ^ f.precision * 2 ^ (g + 1)) ≤ 2 * n + 2 ^ (g + 1) := by
  have hscale : max f.leastScale (ratioLog n 1 - ((f.precision : Int) - 1)) = (g : Int) + 1 := by
    omega
  have hpos : 0 < 2 ^ (g + 1) := Nat.pow_pos (by decide)
  have hrounded : (if 0 ≤ (g : Int) + 1 then nearest n (1 * 2 ^ ((g : Int) + 1).toNat)
      else nearest (n * 2 ^ (-((g : Int) + 1)).toNat) 1) = nearest n (2 ^ (g + 1)) := by
    rw [if_pos (by omega), Nat.one_mul, show ((g : Int) + 1).toNat = g + 1 by omega]
  have htop : nearest n (2 ^ (g + 1)) ≤ 2 ^ f.precision := nearest_le hpos hhigh
  have heven : 2 ^ f.precision % 2 = 0 := by
    obtain ⟨p, hp⟩ := Nat.exists_eq_succ_of_ne_zero hprecision.ne'
    rw [hp, Nat.pow_succ, Nat.mul_mod_left]
  rw [← le_nearest_iff n hpos heven, round_eq hn hscale hrounded, hgreatest]
  by_cases hcarry : nearest n (2 ^ (g + 1)) = 2 ^ f.precision
  · rw [if_pos hcarry, if_pos (by omega)]
    simp only [true_iff]
    exact hcarry.ge
  · rw [if_neg hcarry, if_neg (by omega)]
    simp only [reduceCtorEq, false_iff]
    omega

/-- An integer is too large for a format from half a step above its greatest number on. -/
theorem round_eq_none (hprecision : 0 < f.precision) (hleast : f.leastScale ≤ 0)
    (hgreatest : f.greatestScale = (g : Int) + 1) :
    f.round n 1 = none ↔ 2 ^ (f.precision + (g + 1)) ≤ n + 2 ^ g := by
  have hhalf : 0 < 2 ^ g := Nat.pow_pos (by decide)
  obtain rfl | hn := Nat.eq_zero_or_pos n
  · have hmore := Nat.pow_lt_pow_right (show 1 < 2 by decide)
      (show g < f.precision + (g + 1) by omega)
    rw [round, if_pos rfl]
    simp only [reduceCtorEq, false_iff]
    omega
  obtain ⟨k, hlog, hlow, hhigh⟩ := ratioLog_nat hn
  obtain hless | rfl | hmore : k < f.precision + g ∨ k = f.precision + g ∨ f.precision + g < k := by
    omega
  · have hbelow := Nat.pow_le_pow_right (show 0 < 2 by decide)
      (show k + 1 ≤ f.precision + g by omega)
    have hroom := Nat.pow_le_pow_right (show 0 < 2 by decide) (show g ≤ f.precision + g by omega)
    have hlast : 2 ^ (f.precision + (g + 1)) = 2 * 2 ^ (f.precision + g) := Nat.pow_succ'
    have hsome := round_below hn hlog hleast hgreatest hless
    rw [← Option.not_isSome_iff_eq_none]
    simp only [hsome, not_true, false_iff]
    omega
  · have hall : 2 ^ f.precision * 2 ^ (g + 1) = 2 ^ (f.precision + (g + 1)) :=
      (Nat.pow_add _ _ _).symm
    have hstep : 2 ^ (g + 1) = 2 * 2 ^ g := Nat.pow_succ'
    rw [round_last hn hlog hprecision hleast hgreatest (hall ▸ Nat.le_of_lt hhigh), hall]
    omega
  · have habove := Nat.pow_le_pow_right (show 0 < 2 by decide)
      (show f.precision + (g + 1) ≤ k by omega)
    simp only [round_above hn hlog hgreatest hmore, true_iff]
    omega

end round

end Format

/-- An integer has no floating point number from half a step above the greatest one on. -/
theorem Binary64.ofInt?_eq_none {n : Int} :
    ofInt? n = none ↔ 2 ^ 1024 ≤ n.natAbs + 2 ^ 970 := by
  have h := @Format.round_eq_none Format.double 970 n.natAbs (by decide) (by decide) rfl
  have hexponent : Format.double.precision + (970 + 1) = 1024 := rfl
  rw [hexponent] at h
  rw [ofInt?, Option.map_eq_none_iff]
  exact h

namespace Decimal

open Binary64 (digitCount digitCount_le ten_zpow_digitCount lt_ten_pow_digitCount)

/-- Half a unit below the least number with more digits than decimal arithmetic keeps. -/
def workingLimit : ℚ := 10 ^ workingDigits - 1 / 2

theorem natCast_lt_workingLimit {n : Nat} : (n : ℚ) < workingLimit ↔ n < 10 ^ workingDigits := by
  rw [workingLimit]
  constructor
  · intro h
    have hless : (n : ℚ) < 10 ^ workingDigits := by linarith
    exact_mod_cast hless
  · intro h
    have hle : ((n + 1 : Nat) : ℚ) ≤ (10 ^ workingDigits : Nat) := by exact_mod_cast h
    push_cast at hle
    linarith

/-- What is made of a decimal that gets another exponent, whose coefficient is then a ratio. -/
structure Settles (ratio : ℚ) (r : Rescaled) : Prop where
  room : r.coefficient < 10 ^ workingDigits
  reaches : ∀ limit : Nat, limit % 2 = 0 → (limit ≤ r.coefficient ↔ (limit : ℚ) - 1 / 2 ≤ ratio)
  whole : ∀ n : Nat, (n : ℚ) = ratio ↔ r.exact = true ∧ r.coefficient = n

variable {c : Nat} {e target : Int}

/-- A ratio between zero and one is no whole number. -/
theorem settles_fraction {ratio : ℚ} (hpos : 0 < ratio) (hless : ratio < 1) :
    Settles ratio ⟨0, false⟩ where
  room := Nat.pow_pos (by decide)
  reaches limit heven := by
    obtain rfl | htwo : limit = 0 ∨ 2 ≤ limit := by omega
    · simp only [Nat.le_refl, true_iff]
      push_cast
      linarith
    · have htwo' : (2 : ℚ) ≤ limit := by exact_mod_cast htwo
      constructor
      · intro h
        exact absurd (show limit ≤ 0 from h) (by omega)
      · intro h
        linarith
  whole m := by
    simp only [Bool.false_eq_true, false_and, iff_false]
    rintro rfl
    have hone : 0 < m ∧ m < 1 := ⟨by exact_mod_cast hpos, by exact_mod_cast hless⟩
    omega

theorem settles_whole {n : Nat} (hn : n < 10 ^ workingDigits) : Settles n ⟨n, true⟩ where
  room := hn
  reaches limit _ := by
    constructor
    · intro h
      have h' : (limit : ℚ) ≤ n := by exact_mod_cast h
      linarith
    · intro h
      have hless : (limit : ℚ) < (n + 1 : Nat) := by
        push_cast
        linarith
      exact Nat.lt_succ_iff.mp (by exact_mod_cast hless)
  whole m := by
    simp only [true_and, Nat.cast_inj]
    exact eq_comm

/-- A quotient that is rounded. -/
theorem settles_nearest {unit : Nat} (hunit : 0 < unit)
    (hroom : Format.nearest c unit < 10 ^ workingDigits) :
    Settles ((c : ℚ) / unit) ⟨Format.nearest c unit, c % unit == 0⟩ where
  room := hroom
  reaches limit heven := by
    have hunit' : (0 : ℚ) < unit := by exact_mod_cast hunit
    have hcast : (2 * (limit * unit) ≤ 2 * c + unit) ↔
        (2 : ℚ) * (limit * unit) ≤ 2 * c + unit := by exact_mod_cast Iff.rfl
    rw [Format.le_nearest_iff c hunit heven, hcast, le_div_iff₀ hunit']
    constructor <;> intro h <;> linarith
  whole n := by
    have hunit' : (0 : ℚ) < unit := by exact_mod_cast hunit
    have hdiv := Nat.div_add_mod c unit
    have hexact (hrest : c % unit = 0) : Format.nearest c unit = c / unit := by
      unfold Format.nearest
      simp only
      rw [hrest, if_pos (by omega)]
    rw [eq_div_iff hunit'.ne', beq_iff_eq]
    constructor
    · intro h
      have hc : c = n * unit := by exact_mod_cast h.symm
      have hrest : c % unit = 0 := by rw [hc, Nat.mul_mod_left]
      rw [hexact hrest, hc, Nat.mul_div_cancel _ hunit]
      exact ⟨Nat.mul_mod_left _ _, rfl⟩
    · rintro ⟨hrest, rfl⟩
      rw [hrest, Nat.add_zero, Nat.mul_comm] at hdiv
      rw [hexact hrest]
      exact_mod_cast hdiv

/-- What is made of a decimal that gets another exponent, whose coefficient is then a ratio: nothing
when the ratio has more digits than decimal arithmetic keeps. -/
inductive Rescales (ratio : ℚ) : Option Rescaled → Prop
  | overflow (h : workingLimit ≤ ratio) : Rescales ratio none
  | settled {r : Rescaled} (h : Settles ratio r) : Rescales ratio (some r)

/-- A quotient that is rounded, if it has not too many digits then. -/
theorem rescales_nearest {unit : Nat} (hunit : 0 < unit) :
    Rescales ((c : ℚ) / unit)
      (if workingDigits < digitCount (Format.nearest c unit) then none
        else some ⟨Format.nearest c unit, c % unit == 0⟩) := by
  by_cases hroom : Format.nearest c unit < 10 ^ workingDigits
  · rw [if_neg (Nat.not_lt.mpr (digitCount_le (by decide) hroom))]
    exact .settled (settles_nearest hunit hroom)
  · have hdigits : workingDigits < digitCount (Format.nearest c unit) := by
      by_contra hless
      exact hroom (Nat.lt_of_lt_of_le (lt_ten_pow_digitCount _)
        (Nat.pow_le_pow_right (by decide) (Nat.le_of_not_lt hless)))
    have hlimit := (Format.le_nearest_iff c hunit
      (show 10 ^ workingDigits % 2 = 0 by decide)).mp (Nat.le_of_not_lt hroom)
    have hunit' : (0 : ℚ) < unit := by exact_mod_cast hunit
    have hcast : ((2 * (10 ^ workingDigits * unit) : Nat) : ℚ) ≤ (2 * c + unit : Nat) := by
      exact_mod_cast hlimit
    rw [if_pos hdigits]
    refine .overflow ?_
    rw [le_div_iff₀ hunit', workingLimit]
    push_cast at hcast
    linarith

theorem rescales (c : Nat) (e target : Int) :
    Rescales (c * 10 ^ (e - target)) (rescale? c e target) := by
  obtain rfl | hc := Nat.eq_zero_or_pos c
  · rw [rescale?, if_pos rfl, Nat.cast_zero, zero_mul]
    exact .settled (by exact_mod_cast settles_whole (Nat.pow_pos (by decide)))
  obtain ⟨hlow, hhigh⟩ := ten_zpow_digitCount hc (e - target)
  have hpos : (0 : ℚ) < c * 10 ^ (e - target) := by
    have : (0 : ℚ) < c := by exact_mod_cast hc
    positivity
  have htop : adjusted c e = e + digitCount c - 1 := rfl
  rw [rescale?, if_neg hc.ne']
  generalize adjusted c e = top at *
  dsimp only
  by_cases hlarge : (workingDigits : Int) < top - target + 1
  · rw [if_pos hlarge]
    have hstep : (10 : ℚ) ^ (workingDigits : Int) ≤ 10 ^ ((digitCount c : Int) + (e - target) - 1) :=
      zpow_le_zpow_right₀ (by norm_num) (by omega)
    rw [zpow_natCast] at hstep
    refine .overflow ?_
    rw [workingLimit]
    linarith
  rw [if_neg hlarge]
  by_cases hfiner : target ≤ e
  · -- Zeros are added.
    have hratio : (c : ℚ) * 10 ^ (e - target) = (c * 10 ^ (e - target).toNat : Nat) := by
      rw [ten_zpow, show (-(e - target)).toNat = 0 by omega]
      push_cast
      ring
    have hroom : c * 10 ^ (e - target).toNat < 10 ^ workingDigits := by
      have hstep : (10 : ℚ) ^ ((digitCount c : Int) + (e - target)) ≤ 10 ^ (workingDigits : Int) :=
        zpow_le_zpow_right₀ (by norm_num) (by omega)
      rw [zpow_natCast] at hstep
      rw [hratio] at hhigh
      exact_mod_cast lt_of_lt_of_le hhigh hstep
    rw [if_pos hfiner, hratio]
    exact .settled (settles_whole hroom)
  rw [if_neg hfiner]
  by_cases hsmall : top < target - 1
  · -- All digits are behind the last place.
    rw [if_pos hsmall]
    refine .settled (settles_fraction hpos (lt_of_lt_of_le hhigh ?_))
    exact zpow_le_one_of_nonpos₀ (by norm_num) (by omega)
  · have hratio : (c : ℚ) * 10 ^ (e - target) = (c : ℚ) / (10 ^ (target - e).toNat : Nat) := by
      rw [ten_zpow, show (e - target).toNat = 0 by omega, show -(e - target) = target - e by omega]
      push_cast
      ring
    rw [if_neg hsmall, hratio]
    exact rescales_nearest (Nat.pow_pos (by decide))

/-- A decimal keeps its value at another exponent. -/
theorem rescale?_exact_iff {c n : Nat} {e target : Int} :
    rescale? c e target = some ⟨n, true⟩ ↔
      (n : ℚ) = c * 10 ^ (e - target) ∧ n < 10 ^ workingDigits := by
  have h := rescales c e target
  cases hr : rescale? c e target with
  | none =>
    rw [hr] at h
    cases h with
    | overflow h =>
      refine ⟨nofun, ?_⟩
      rintro ⟨hn, hroom⟩
      rw [← hn] at h
      exact absurd (natCast_lt_workingLimit.mpr hroom) (not_lt.mpr h)
  | some r =>
    rw [hr] at h
    cases h with
    | settled h =>
      have hwhole := h.whole n
      obtain ⟨coefficient, exact⟩ := r
      simp only [Option.some.injEq, Rescaled.mk.injEq] at hwhole ⊢
      constructor
      · rintro ⟨rfl, rfl⟩
        have hn := hwhole.mpr ⟨rfl, rfl⟩
        exact ⟨hn, h.room⟩
      · rintro ⟨hn, -⟩
        exact (hwhole.mp hn).symm

/-- The number of digits that decimal arithmetic has room for at an exponent. -/
def digitsAt (target : Int) : Nat := min workingDigits (workingExponent + 1 - target).toNat

/-- Half a unit below the least number with more digits than that. -/
def limitAt (target : Int) : ℚ := 10 ^ digitsAt target - 1 / 2

theorem digitsAt_eq (h : target + workingDigits ≤ workingExponent + 1) :
    digitsAt target = workingDigits := by
  rw [digitsAt]
  omega

theorem limitAt_eq (h : target + workingDigits ≤ workingExponent + 1) :
    limitAt target = workingLimit := by
  rw [limitAt, digitsAt_eq h, workingLimit]

section quantize

variable (ht : target ≤ workingExponent)
include ht

/-- A leading digit is not too great when there are not more digits than there is room for. -/
theorem adjusted_le_iff (n : Nat) :
    adjusted n target ≤ workingExponent ↔ n < 10 ^ (workingExponent + 1 - target).toNat := by
  rw [← Nat.length_toDigits_le_iff (by decide) (show 0 < (workingExponent + 1 - target).toNat by omega)]
  rw [adjusted, digitCount]
  omega

theorem lt_digitsAt_iff (n : Nat) :
    n < 10 ^ digitsAt target ↔ n < 10 ^ workingDigits ∧ adjusted n target ≤ workingExponent := by
  rw [adjusted_le_iff ht, digitsAt]
  obtain h | h := le_total workingDigits (workingExponent + 1 - target).toNat
  · rw [min_eq_left h]
    exact ⟨fun hn => ⟨hn, lt_of_lt_of_le hn (Nat.pow_le_pow_right (by decide) h)⟩, And.left⟩
  · rw [min_eq_right h]
    exact ⟨fun hn => ⟨lt_of_lt_of_le hn (Nat.pow_le_pow_right (by decide) h), hn⟩, And.right⟩

/-- Decimal arithmetic has no room for a decimal at another exponent. -/
theorem quantize?_eq_none : quantize? c e target = none ↔ limitAt target ≤ c * 10 ^ (e - target) := by
  have hpos : 0 < digitsAt target := by
    rw [digitsAt, workingDigits]
    omega
  have heven : 10 ^ digitsAt target % 2 = 0 := by
    rw [← Nat.sub_add_cancel hpos, Nat.pow_succ]
    omega
  have hlimit : limitAt target = ((10 ^ digitsAt target : Nat) : ℚ) - 1 / 2 := by
    rw [limitAt]
    push_cast
    rfl
  have h := rescales c e target
  rw [quantize?]
  cases hr : rescale? c e target with
  | none =>
    rw [hr] at h
    cases h with
    | overflow h =>
      refine ⟨fun _ => le_trans ?_ h, fun _ => rfl⟩
      have hpow : (10 : ℚ) ^ digitsAt target ≤ 10 ^ workingDigits :=
        pow_le_pow_right₀ (by norm_num) (min_le_left _ _)
      rw [limitAt, workingLimit]
      linarith
  | some r =>
    rw [hr] at h
    cases h with
    | settled h =>
      rw [hlimit, ← h.reaches _ heven, ← Nat.not_lt, lt_digitsAt_iff ht, Option.filter_some]
      simp [h.room]

/-- A decimal keeps its value at another exponent. -/
theorem quantize?_exact_iff {n : Nat} :
    quantize? c e target = some ⟨n, true⟩ ↔
      (n : ℚ) = c * 10 ^ (e - target) ∧ n < 10 ^ digitsAt target := by
  rw [quantize?, Option.filter_eq_some_iff, rescale?_exact_iff, lt_digitsAt_iff ht,
    decide_eq_true_eq, and_assoc]

end quantize

end Decimal
end AvroDocument
