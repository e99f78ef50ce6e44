import BisayaPlus.Proofs.DisplayText
import Mathlib.Algebra.Order.Ring.Int

/-!
Integers as numbers. Up to a magnitude of 2^53 every integer is a number, so counting by one and
comparing are exact there.
-/

namespace BisayaPlus.Number

variable {m n : Int}

def ofInt (n : Int) : Number :=
  if n < 0 then (ofNat n.natAbs).neg else ofNat n.natAbs

theorem ofInt_natCast (k : Nat) : ofInt k = ofNat k := by
  rw [ofInt, if_neg (by omega), Int.natAbs_natCast]

/-- The number of an integer is exact up to 2 ^ 53. -/
theorem ofInt_eq (hn : n.natAbs ≤ 2 ^ 53) :
    ofInt n = .finite (decide (n < 0)) (n.natAbs * one) (representable_mul_one hn) := by
  rw [ofInt, ofNat_eq hn]
  by_cases hneg : n < 0
  · rw [if_pos hneg, decide_eq_true hneg]
    rfl
  · rw [if_neg hneg, decide_eq_false hneg]

theorem isFinite_ofInt (hn : n.natAbs ≤ 2 ^ 53) : (ofInt n).isFinite = true := by
  rw [ofInt_eq hn]
  rfl

theorem signed_natAbs (n : Int) (k : Nat) : signed (decide (n < 0)) (n.natAbs * k) = n * k := by
  unfold signed
  by_cases hneg : n < 0
  · have habs : (n.natAbs : Int) = -n := by omega
    rw [decide_eq_true hneg, if_pos rfl, Int.natCast_mul, habs, Int.neg_mul, Int.neg_neg]
  · have habs : (n.natAbs : Int) = n := by omega
    rw [decide_eq_false hneg, if_neg Bool.false_ne_true, Int.natCast_mul, habs]

theorem place?_ofInt (hn : n.natAbs ≤ 2 ^ 53) : (ofInt n).place? = some (n * one) := by
  rw [ofInt_eq hn, place?_finite, signed_natAbs]

/-- Integers are compared exactly. -/
theorem order?_ofInt (hm : m.natAbs ≤ 2 ^ 53) (hn : n.natAbs ≤ 2 ^ 53) :
    (ofInt m).order? (ofInt n) = some (compare m n) := by
  have hone : (0 : Int) < one := Int.natCast_pos.2 one_pos
  rw [order?_of_place? (place?_ofInt hm) (place?_ofInt hn), ← cmp_eq_compare,
    cmp_mul_pos_right hone, cmp_eq_compare]

/-- Units that make up an exact integer are rounded to it. -/
theorem ofUnits_mul_one (hn : n.natAbs ≤ 2 ^ 53) : ofUnits false (n * one) = ofInt n := by
  have hone : (0 : Int) < one := Int.natCast_pos.2 one_pos
  have hunits : (n * one).natAbs = n.natAbs * one := by
    rw [Int.natAbs_mul, Int.natAbs_natCast]
  have hsign : (if n * one = 0 then false else decide (n * one < 0)) = decide (n < 0) := by
    by_cases hzero : n = 0
    · rw [hzero, Int.zero_mul, if_pos rfl]
      rfl
    · have hne : n * one ≠ 0 := Int.mul_ne_zero hzero (Int.ne_of_gt hone)
      rw [if_neg hne, decide_eq_decide]
      constructor
      · intro h
        by_contra hneg
        exact Int.not_lt.2 (Int.mul_nonneg (Int.not_lt.1 hneg) (Int.le_of_lt hone)) h
      · intro h
        exact Int.mul_neg_of_neg_of_pos h hone
  rw [ofUnits, hsign, hunits, ofRatio_mul_one _ hn, ofInt_eq hn]

/-- Counting by one is exact below 2^53. -/
theorem ofInt_add_one (hn : n.natAbs ≤ 2 ^ 53) (hsucc : (n + 1).natAbs ≤ 2 ^ 53) :
    (ofInt n).add (ofNat 1) = ofInt (n + 1) := by
  have hone : ofNat 1 = ofInt (1 : Nat) := (ofInt_natCast 1).symm
  have hle : ((1 : Nat) : Int).natAbs ≤ 2 ^ 53 := by decide
  have hfalse : decide (((1 : Nat) : Int) < 0) = false := rfl
  rw [hone, ofInt_eq hn, ofInt_eq hle, add, signed_natAbs, signed_natAbs, ← Int.add_mul, hfalse,
    Bool.and_false]
  exact ofUnits_mul_one hsucc

end BisayaPlus.Number
