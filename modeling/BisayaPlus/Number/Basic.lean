/-!
Numbers with 53 significant bits. A finite number is a sign and a count of units of 2^-1074, the
distance between the two smallest magnitudes. An exact result, given as a ratio of units, is
rounded to the nearest number, and a tie goes to the even one. A result that would need 2^2098
units is infinite.
-/

namespace BisayaPlus

namespace Number

/-- The units that make one. -/
def one : Nat := Nat.pow 2 1074

/-- The least count of units that is too large to be finite. -/
def bound : Nat := Nat.pow 2 2098

/-- A count of units is that of a number if it is below the bound and has no more than 53 bits
from the first one set to the last one set. -/
def Representable (units : Nat) : Prop :=
  units < bound ∧ Nat.pow 2 (units.log2 - 52) ∣ units

instance (units : Nat) : Decidable (Representable units) :=
  inferInstanceAs (Decidable (_ ∧ _))

end Number

/-- A finite number keeps its sign when it is zero. -/
inductive Number where
  | finite (negative : Bool) (units : Nat) (representable : Number.Representable units)
  | infinite (negative : Bool)
  | nan
  deriving DecidableEq

namespace Number

theorem bound_pos : 0 < bound := by
  unfold bound
  apply Nat.pow_pos
  decide

theorem representable_zero : Representable 0 :=
  ⟨bound_pos, Nat.dvd_zero _⟩

def zero (negative : Bool) : Number :=
  .finite negative 0 representable_zero

/-- A quotient rounded to the nearest whole number, ties to even. -/
def roundDiv (num den : Nat) : Nat :=
  if den < 2 * (num % den) ∨ 2 * (num % den) = den ∧ num / den % 2 = 1 then
    num / den + 1
  else
    num / den

def step (num den : Nat) : Nat :=
  Nat.pow 2 ((num / den).log2 - 52)

/-- The count of units nearest to a ratio of units, among those that are multiples of the step. -/
def roundUnits (num den : Nat) : Nat :=
  roundDiv num (den * step num den) * step num den

theorem roundDiv_le {num den : Nat} : roundDiv num den ≤ num / den + 1 := by
  unfold roundDiv
  split <;> omega

theorem dvd_of_le_two_pow {m k : Nat} (hm : m ≤ Nat.pow 2 53) :
    Nat.pow 2 ((m * Nat.pow 2 k).log2 - 52) ∣ m * Nat.pow 2 k := by
  rw [Nat.pow_eq] at hm
  rw [Nat.pow_eq, Nat.pow_eq]
  rcases Nat.eq_zero_or_pos m with rfl | hpos
  · simp
  rcases Nat.lt_or_ge m (2 ^ 53) with h | h
  · have hne : m * 2 ^ k ≠ 0 := Nat.ne_of_gt (Nat.mul_pos hpos (Nat.two_pow_pos k))
    have hlog : (m * 2 ^ k).log2 < 53 + k := by
      rw [Nat.log2_lt hne, Nat.pow_add]
      exact Nat.mul_lt_mul_of_pos_right h (Nat.two_pow_pos k)
    exact Nat.dvd_trans (Nat.pow_dvd_pow 2 (by omega)) (Nat.dvd_mul_left _ _)
  · have hm' : m = 2 ^ 53 := Nat.le_antisymm hm h
    rw [hm', ← Nat.pow_add, Nat.log2_two_pow]
    exact Nat.pow_dvd_pow 2 (by omega)

/-- Rounding leaves no more than 53 significant bits. -/
theorem representable_roundUnits {num den : Nat} (h : roundUnits num den < bound) :
    Representable (roundUnits num den) := by
  refine ⟨h, ?_⟩
  unfold roundUnits step
  apply dvd_of_le_two_pow
  refine Nat.le_trans roundDiv_le ?_
  rw [← Nat.div_div_eq_div_mul, Nat.pow_eq, Nat.pow_eq]
  have hlt : num / den < 2 ^ ((num / den).log2 - 52) * 2 ^ 53 := by
    rw [← Nat.pow_add]
    refine Nat.lt_of_lt_of_le Nat.lt_log2_self (Nat.pow_le_pow_right (by omega) (by omega))
  have := Nat.div_lt_of_lt_mul hlt
  omega

def ofRatio (negative : Bool) (num den : Nat) : Number :=
  if h : roundUnits num den < bound then
    .finite negative (roundUnits num den) (representable_roundUnits h)
  else
    .infinite negative

def ofNat (n : Nat) : Number :=
  ofRatio false (n * one) 1

def isFinite : Number → Bool
  | .finite .. => true
  | _ => false

/-- A number that is not finite has no whole part and so is not whole. -/
def isWhole : Number → Bool
  | .finite _ units _ => units % one == 0
  | _ => false

/-- The place of a number on the line, in units. The infinities stand at the bounds, the two zeros
stand together, and a number that is none has no place. -/
def place? : Number → Option Int
  | .finite false units _ => some units
  | .finite true units _ => some (-units)
  | .infinite false => some bound
  | .infinite true => some (-bound)
  | .nan => none

def order? (x y : Number) : Option Ordering :=
  match x.place?, y.place? with
  | some a, some b => some (compare a b)
  | _, _ => none

def equals (x y : Number) : Bool :=
  x.order? y == some .eq

def isZero (x : Number) : Bool :=
  x.place? == some 0

end Number

end BisayaPlus
