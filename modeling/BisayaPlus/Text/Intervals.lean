/-!
Sets of characters given by intervals of code points.
-/

namespace BisayaPlus.Text

abbrev Intervals := List (Nat × Nat)

def Intervals.contains (s : Intervals) (c : Char) : Bool :=
  s.any fun r => decide (r.1 ≤ c.toNat) && decide (c.toNat ≤ r.2)

end BisayaPlus.Text
