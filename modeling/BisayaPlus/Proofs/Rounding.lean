import BisayaPlus.Number.Arithmetic
import Mathlib.Tactic.Ring

/-!
Exact results are not rounded. A ratio of units that is some number's count of units rounds to it,
so a number stays as it is when it is multiplied by one, and has the other sign when it is
multiplied by minus one.
-/

namespace BisayaPlus.Number

variable {k units num den : Nat} {negative : Bool} {h : Representable units}

theorem roundUnits_zero (den : Nat) : roundUnits 0 den = 0 := by
  have hdiv : roundDiv 0 (den * step 0 den) = 0 := by
    simp [roundDiv]
  rw [roundUnits, hdiv, Nat.zero_mul]

/-- A quotient without remainder is not rounded. -/
theorem roundDiv_mul (k : Nat) (hden : 0 < den) : roundDiv (den * k) den = k := by
  have hmod : den * k % den = 0 := Nat.mul_mod_right den k
  have hdiv : den * k / den = k := Nat.mul_div_cancel_left k hden
  have hup : ¬(den < 2 * 0 ∨ 2 * 0 = den ∧ k % 2 = 1) := by omega
  rw [roundDiv, hmod, hdiv, if_neg hup]

/-- The units of a number are the nearest to themselves. -/
theorem roundUnits_mul (h : Representable units) (hden : 0 < den) :
    roundUnits (units * den) den = units := by
  have hdiv : units * den / den = units := Nat.mul_div_cancel units hden
  have hstep : step (units * den) den = Nat.pow 2 (units.log2 - 52) := by
    rw [step, hdiv]
  obtain ⟨k, hk⟩ := h.2
  have hpos : 0 < Nat.pow 2 (units.log2 - 52) := Nat.two_pow_pos _
  rw [roundUnits, hstep]
  generalize Nat.pow 2 (units.log2 - 52) = s at hk hpos
  subst hk
  have hnum : s * k * den = den * s * k := by ring
  rw [hnum, roundDiv_mul k (Nat.mul_pos hden hpos), Nat.mul_comm]

/-- Which ratios round to some units does not depend on the sign. -/
theorem ofRatio_eq_finite_iff :
    ofRatio negative num den = .finite negative units h ↔ roundUnits num den = units := by
  unfold ofRatio
  constructor
  · intro heq
    split at heq
    · cases heq
      rfl
    · cases heq
  · rintro rfl
    rw [dif_pos h.1]

theorem one_pos : 0 < one := by
  unfold one
  apply Nat.pow_pos
  decide

theorem mul_two_pow_lt {i j : Nat} (hk : k ≤ 2 ^ 53) (hij : 53 + i < j) : k * 2 ^ i < 2 ^ j :=
  calc
    k * 2 ^ i ≤ 2 ^ 53 * 2 ^ i := Nat.mul_le_mul_right _ hk
    _ = 2 ^ (53 + i) := (Nat.pow_add 2 53 i).symm
    _ < 2 ^ j := Nat.pow_lt_pow_right Nat.one_lt_two hij

/-- Natural numbers up to 2 ^ 53 are represented exactly. -/
theorem representable_mul_one (hk : k ≤ 2 ^ 53) : Representable (k * one) := by
  -- Only the exponents of the two powers are looked at, since the powers are too large to compute.
  obtain ⟨i, j, hone, hbound, hij⟩ :
      ∃ i j, one = Nat.pow 2 i ∧ bound = Nat.pow 2 j ∧ 53 + i < j := by
    refine ⟨1074, 2098, ?_, ?_, by omega⟩
    · delta one
      exact Eq.refl _
    · delta bound
      exact Eq.refl _
  rw [Representable, hone, hbound]
  exact ⟨mul_two_pow_lt hk (by omega), dvd_of_le_two_pow hk⟩

/-- Whole units are not rounded. -/
theorem ofRatio_mul_one (negative : Bool) (hk : k ≤ 2 ^ 53) :
    ofRatio negative (k * one) 1 = .finite negative (k * one) (representable_mul_one hk) := by
  rw [ofRatio_eq_finite_iff]
  have hexact := roundUnits_mul (representable_mul_one hk) Nat.one_pos
  rwa [Nat.mul_one] at hexact

theorem ofNat_eq (hk : k ≤ 2 ^ 53) :
    ofNat k = .finite false (k * one) (representable_mul_one hk) :=
  ofRatio_mul_one false hk

theorem ofRatio_mul_units (negative : Bool) (h : Representable units) :
    ofRatio negative (units * (1 * one)) one = .finite negative units h := by
  rw [ofRatio_eq_finite_iff, Nat.one_mul]
  exact roundUnits_mul h one_pos

/-- A finite number times one is itself. -/
theorem mul_ofNat_one {n : Number} (hn : n.isFinite = true) : n.mul (ofNat 1) = n := by
  rw [ofNat_eq (by decide)]
  cases n with
  | finite s u h => rw [mul, ofRatio_mul_units _ h, Bool.bne_false]
  | infinite | nan => cases hn

/-- A finite number times minus one is itself with the other sign. -/
theorem mul_neg_ofNat_one {n : Number} (hn : n.isFinite = true) :
    n.mul (ofNat 1).neg = n.neg := by
  rw [ofNat_eq (by decide)]
  cases n with
  | finite s u h => rw [neg, mul, ofRatio_mul_units _ h, neg, Bool.not_false, Bool.bne_true]
  | infinite | nan => cases hn

end BisayaPlus.Number
