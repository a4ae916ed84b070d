import AvroDocument.Proofs.Rounding

/-!
# AvroDocument.Proofs.Shortest

The shortest digits of a number round to it.

* `Binary64.neighbour?_spec`, `Binary64.neighbour?_isSome`: a neighbour on the integers that lies in an
  interval, and one that is found because the interval is wide enough.
* `Binary64.near_shortest`: the digits are found, and lie around the number.
-/

namespace AvroDocument
namespace Binary64

theorem decimalLog_spec {num den : Nat} (hn : 0 < num) (hd : 0 < den) :
    (10 : ℚ) ^ decimalLog num den ≤ num / den := by
  have hn' : (0 : ℚ) < num := by exact_mod_cast hn
  have hd' : (0 : ℚ) < den := by exact_mod_cast hd
  unfold decimalLog
  rw [le_div_iff₀ hd']
  split
  · rename_i hle
    have hquotient : 0 < num / den := Nat.div_pos hle hd
    have hone := one_le_digitCount (num / den)
    have hpow := Nat.mul_le_mul_right den (ten_pow_le_of_digitCount hquotient)
    have hdiv := Nat.div_mul_le_self num den
    have hexponent : (digitCount (num / den) : Int) - 1 = ((digitCount (num / den) - 1 : Nat) : Int) := by
      omega
    rw [hexponent, zpow_natCast]
    exact_mod_cast Nat.le_trans hpow hdiv
  · rename_i hlt
    have hone := one_le_digitCount (den / num)
    simp only
    split
    · rename_i hle
      have hexponent : -((digitCount (den / num) : Int) - 1) =
          -((digitCount (den / num) - 1 : Nat) : Int) := by
        omega
      rw [hexponent, zpow_neg, zpow_natCast, inv_mul_le_iff₀ (by positivity), mul_comm]
      exact_mod_cast hle
    · have hpow := Nat.mul_le_mul_right num
        (Nat.succ_le_of_lt (lt_ten_pow_digitCount (den / num)))
      have hdiv := Nat.lt_mul_div_succ den hn
      rw [zpow_neg, zpow_natCast, inv_mul_le_iff₀ (by positivity)]
      rw [Nat.mul_comm] at hdiv
      exact_mod_cast Nat.le_trans hdiv.le hpow

theorem nearest_cases (a b : Nat) :
    Format.nearest a b = a / b ∨ Format.nearest a b = a / b + 1 := by
  unfold Format.nearest
  simp only
  split
  · exact .inl rfl
  · split
    · exact .inr rfl
    · split
      · exact .inl rfl
      · exact .inr rfl

/-- Whether a multiple lies between two ends. -/
structure Between (b low high : Nat) (closed : Bool) (d : Nat) : Prop where
  above : low ≤ d * b
  below : d * b ≤ high
  strict : closed = false → low < d * b ∧ d * b < high

variable {a b low high : Nat} {closed : Bool}

theorem inside_iff {d : Nat} :
    (if closed then decide (low ≤ d * b) && decide (d * b ≤ high)
      else decide (low < d * b) && decide (d * b < high)) = true ↔ Between b low high closed d := by
  constructor
  · intro h
    cases closed with
    | true =>
      simp only [if_true, Bool.and_eq_true, decide_eq_true_eq] at h
      exact ⟨h.1, h.2, fun h => by cases h⟩
    | false =>
      simp only [Bool.false_eq_true, if_false, Bool.and_eq_true, decide_eq_true_eq] at h
      exact ⟨h.1.le, h.2.le, fun _ => h⟩
  · intro h
    cases closed with
    | true =>
      simp only [if_true, Bool.and_eq_true, decide_eq_true_eq]
      exact ⟨h.above, h.below⟩
    | false =>
      simp only [Bool.false_eq_true, if_false, Bool.and_eq_true, decide_eq_true_eq]
      exact h.strict rfl

theorem neighbour?_spec {d : Nat} (h : neighbour? a b low high closed = some d) :
    Between b low high closed d := by
  unfold neighbour? at h
  simp only at h
  split at h
  · rename_i hdown hup
    cases h
    obtain hnearest | hnearest := nearest_cases a b
    · rw [hnearest]
      exact inside_iff.mp hdown
    · rw [hnearest]
      exact inside_iff.mp hup
  · rename_i hdown _
    cases h
    exact inside_iff.mp hdown
  · rename_i _ hup
    cases h
    exact inside_iff.mp hup
  · cases h

/-- An interval that is wider than the steps holds a neighbour. -/
theorem neighbour?_isSome (hb : 0 < b) (hlow : low < a) (hhigh : a < high) (hwide : low + b < high) :
    ∃ d, neighbour? a b low high closed = some d := by
  have hdown : a / b * b ≤ a := Nat.div_mul_le_self a b
  have hup : a < (a / b + 1) * b := by
    rw [Nat.mul_comm]
    exact Nat.lt_mul_div_succ a hb
  have hstep : (a / b + 1) * b = a / b * b + b := by rw [Nat.add_mul, Nat.one_mul]
  have hone : Between b low high closed (a / b) ∨ Between b low high closed (a / b + 1) := by
    by_cases h : low < a / b * b
    · exact .inl ⟨by omega, by omega, fun _ => ⟨h, by omega⟩⟩
    · exact .inr ⟨by omega, by omega, fun _ => ⟨by omega, by omega⟩⟩
  unfold neighbour?
  simp only
  split
  · exact ⟨_, rfl⟩
  · exact ⟨_, rfl⟩
  · exact ⟨_, rfl⟩
  · rename_i hnotDown hnotUp
    rw [← Bool.not_eq_true, inside_iff] at hnotDown hnotUp
    exact absurd hone (not_or.mpr ⟨hnotDown, hnotUp⟩)

/-! ## The digits of a number -/

section shortest

variable {m : Nat} {q k : Int}

/-- The decimal neighbours of a number on the multiples of a power of ten. -/
def onPower (m : Nat) (q k : Int) : Option Nat :=
  let up := 2 ^ (q - 2).toNat * 10 ^ (-k).toNat
  let b := 2 ^ (2 - q).toNat * 10 ^ k.toNat
  neighbour? (4 * m * up) b (lowEnd m q * up) ((4 * m + 2) * up) (m % 2 == 0)

def greatestPower (m : Nat) (q : Int) : Int :=
  decimalLog (4 * m * 2 ^ (q - 2).toNat) (2 ^ (2 - q).toNat)

theorem shortest_eq (m : Nat) (q : Int) : shortest m q =
    ((List.range 17).findSome? fun n : Nat => (onPower m q (greatestPower m q - n)).map fun d =>
      (d, greatestPower m q - n)).getD (0, 0) := rfl

theorem four_mul_zpow (q : Int) : (2 : ℚ) ^ q = 4 * 2 ^ (q - 2) := by
  have hsplit : (2 : ℚ) ^ q = 2 ^ (q - 2 + 1 + 1) := by rw [show q - 2 + 1 + 1 = q by omega]
  rw [hsplit, zpow_two_succ, zpow_two_succ]
  ring

/-- Multiples of a power of two and of a power of ten over one common denominator. -/
theorem cast_multiples (x d : Nat) (q k : Int) :
    ∃ c : ℚ, 0 < c ∧
      ((x * (2 ^ (q - 2).toNat * 10 ^ (-k).toNat) : Nat) : ℚ) = x * 2 ^ (q - 2) * c ∧
      ((d * (2 ^ (2 - q).toNat * 10 ^ k.toNat) : Nat) : ℚ) = d * 10 ^ k * c := by
  have hneg : 2 - q = -(q - 2) := by omega
  have htwo : ((2 ^ (-(q - 2)).toNat : Nat) : ℚ) ≠ 0 := by positivity
  have hten : ((10 ^ (-k).toNat : Nat) : ℚ) ≠ 0 := by positivity
  refine ⟨((2 ^ (-(q - 2)).toNat : Nat) : ℚ) * ((10 ^ (-k).toNat : Nat) : ℚ), by positivity,
    ?_, ?_⟩
  · rw [two_zpow, Nat.cast_mul, Nat.cast_mul]
    field_simp
  · rw [ten_zpow, hneg, Nat.cast_mul, Nat.cast_mul]
    field_simp

theorem le_iff_multiples (x d : Nat) (q k : Int) :
    (x * (2 ^ (q - 2).toNat * 10 ^ (-k).toNat) ≤ d * (2 ^ (2 - q).toNat * 10 ^ k.toNat) ↔
      (x : ℚ) * 2 ^ (q - 2) ≤ d * 10 ^ k) := by
  obtain ⟨c, hc, hx, hd⟩ := cast_multiples x d q k
  rw [← Nat.cast_le (α := ℚ), hx, hd, mul_le_mul_iff_left₀ hc]

theorem ge_iff_multiples (x d : Nat) (q k : Int) :
    (d * (2 ^ (2 - q).toNat * 10 ^ k.toNat) ≤ x * (2 ^ (q - 2).toNat * 10 ^ (-k).toNat) ↔
      (d : ℚ) * 10 ^ k ≤ x * 2 ^ (q - 2)) := by
  obtain ⟨c, hc, hx, hd⟩ := cast_multiples x d q k
  rw [← Nat.cast_le (α := ℚ), hx, hd, mul_le_mul_iff_left₀ hc]

/-- A decimal neighbour that lies in the interval around the number. -/
theorem near_onPower {d : Nat} (h : onPower m q k = some d) : Near m q (d * 10 ^ k) := by
  have hbetween := neighbour?_spec h
  have hlow := (le_iff_multiples _ _ _ _).mp hbetween.above
  have hhigh := (ge_iff_multiples _ _ _ _).mp hbetween.below
  have hscale := four_mul_zpow q
  refine ⟨?_, ?_, fun hodd => ?_⟩
  · rw [hscale]
    linarith
  · rw [hscale]
    push_cast at hhigh
    linarith
  · obtain ⟨habove, hbelow⟩ := hbetween.strict (by simp [hodd])
    rw [← not_le, ge_iff_multiples, not_le] at habove
    rw [← not_le, le_iff_multiples, not_le] at hbelow
    rw [hscale]
    push_cast at hbelow
    exact ⟨by linarith, by linarith⟩

theorem greatestPower_spec (hc : Canonical m q) : (10 : ℚ) ^ greatestPower m q ≤ m * 2 ^ q := by
  have hm := hc.pos
  have hspec := decimalLog_spec (show 0 < 4 * m * 2 ^ (q - 2).toNat by positivity)
    (show 0 < 2 ^ (2 - q).toNat by positivity)
  rw [greatestPower]
  refine le_trans hspec (le_of_eq ?_)
  rw [four_mul_zpow, two_zpow, show 2 - q = -(q - 2) by omega]
  push_cast
  ring

/-- The steps of seventeen digits are narrower than the interval, also where it is cut to three
quarters. -/
theorem step_lt_width (hc : Canonical m q) :
    (10 : ℚ) ^ (greatestPower m q - 16) < (4 * m + 2 - lowEnd m q : Nat) * 2 ^ (q - 2) := by
  have hq := two_zpow_pos (q - 2)
  have hstep : (10 : ℚ) ^ (greatestPower m q - 16) * 10 ^ (16 : Int) ≤ m * (4 * 2 ^ (q - 2)) := by
    rw [← four_mul_zpow, ← zpow_add₀ (by norm_num), Int.sub_add_cancel]
    exact greatestPower_spec hc
  norm_num at hstep
  by_cases hpower : m = 2 ^ 52
  · have hwidth : 3 ≤ 4 * m + 2 - lowEnd m q := by
      unfold lowEnd
      split <;> omega
    have hwidth' : (3 : ℚ) ≤ (4 * m + 2 - lowEnd m q : Nat) := by exact_mod_cast hwidth
    have hm : (m : ℚ) = 2 ^ 52 := by exact_mod_cast hpower
    rw [hm] at hstep
    norm_num at hstep
    nlinarith
  · have hwidth : 4 * m + 2 - lowEnd m q = 4 := by
      have := hc.pos
      unfold lowEnd
      rw [if_neg fun h => hpower (by simpa using (Bool.and_eq_true_iff.mp h).1)]
      omega
    have hm : (m : ℚ) ≤ 9007199254740992 := by exact_mod_cast hc.less.le
    rw [hwidth]
    push_cast
    nlinarith

/-- Seventeen digits are enough. -/
theorem onPower_isSome (hc : Canonical m q) :
    ∃ d, onPower m q (greatestPower m q - 16) = some d := by
  have hm := hc.pos
  have hlow : lowEnd m q < 4 * m := by
    unfold lowEnd
    split <;> omega
  refine neighbour?_isSome (by positivity) (Nat.mul_lt_mul_of_pos_right hlow (by positivity))
    (Nat.mul_lt_mul_of_pos_right (by omega) (by positivity)) ?_
  have hstep := step_lt_width hc
  have hwide : 1 * (2 ^ (2 - q).toNat * 10 ^ (greatestPower m q - 16).toNat) <
      (4 * m + 2 - lowEnd m q) *
        (2 ^ (q - 2).toNat * 10 ^ (-(greatestPower m q - 16)).toNat) := by
    rw [← not_le, le_iff_multiples, not_le, Nat.cast_one, one_mul]
    exact hstep
  rw [Nat.one_mul, Nat.sub_mul] at hwide
  omega

/-- The shortest digits lie around the number. -/
theorem near_shortest (hc : Canonical m q) :
    Near m q ((shortest m q).1 * 10 ^ (shortest m q).2) := by
  rw [shortest_eq]
  cases hfind : (List.range 17).findSome? fun n : Nat =>
      (onPower m q (greatestPower m q - n)).map fun d => (d, greatestPower m q - n) with
  | none =>
    rw [List.findSome?_eq_none_iff] at hfind
    obtain ⟨d, hd⟩ := onPower_isSome hc
    have := hfind 16 (by decide)
    rw [show ((16 : Nat) : Int) = 16 from rfl, hd] at this
    cases this
  | some found =>
    obtain ⟨n, -, hn⟩ := List.exists_of_findSome?_eq_some hfind
    obtain ⟨d, hd, rfl⟩ := Option.map_eq_some_iff.mp hn
    exact near_onPower hd

end shortest

end Binary64
end AvroDocument
