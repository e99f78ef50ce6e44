import BisayaPlus.Number.Basic

/-!
Arithmetic on numbers. Each operation rounds its exact result once. Where no result exists, the
answer is the number that is none.
-/

namespace BisayaPlus.Number

def neg : Number → Number
  | .finite negative units h => .finite (!negative) units h
  | .infinite negative => .infinite (!negative)
  | .nan => .nan

@[simp] theorem isFinite_neg (x : Number) : x.neg.isFinite = x.isFinite := by
  cases x <;> rfl

/-- The number nearest to a signed count of units. If the count is zero, the sign is as given. -/
def ofUnits (zeroSign : Bool) (units : Int) : Number :=
  ofRatio (if units = 0 then zeroSign else decide (units < 0)) units.natAbs 1

def signed (negative : Bool) (units : Nat) : Int :=
  if negative then -units else units

/-- A zero sum is negative only if both terms are. -/
def add : Number → Number → Number
  | .finite s u _, .finite t v _ => ofUnits (s && t) (signed s u + signed t v)
  | .finite .., .infinite t => .infinite t
  | .infinite s, .finite .. => .infinite s
  | .infinite s, .infinite t => if s = t then .infinite s else .nan
  | _, _ => .nan

def sub (x y : Number) : Number :=
  x.add y.neg

def mul : Number → Number → Number
  | .finite s u _, .finite t v _ => ofRatio (s != t) (u * v) one
  | .finite s u _, .infinite t => if u = 0 then .nan else .infinite (s != t)
  | .infinite s, .finite t v _ => if v = 0 then .nan else .infinite (s != t)
  | .infinite s, .infinite t => .infinite (s != t)
  | _, _ => .nan

def div : Number → Number → Number
  | .finite s u _, .finite t v _ =>
    if v = 0 then
      if u = 0 then .nan else .infinite (s != t)
    else
      ofRatio (s != t) (u * one) v
  | .finite s _ _, .infinite t => zero (s != t)
  | .infinite s, .finite t _ _ => .infinite (s != t)
  | _, _ => .nan

/-- The remainder of a division that is cut off toward zero. It has the sign of the dividend. -/
def rem : Number → Number → Number
  | .finite s u _, .finite _ v _ => if v = 0 then .nan else ofRatio s (u % v) 1
  | .finite s u h, .infinite _ => .finite s u h
  | _, _ => .nan

end BisayaPlus.Number
