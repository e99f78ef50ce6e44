/-!
Places in a source text.
-/

namespace BisayaPlus

/-- The bytes from `start` up to and not including `stop`. -/
structure Span where
  start : Nat
  stop : Nat
  deriving DecidableEq

/-- The least span that covers both. -/
def Span.join (a b : Span) : Span :=
  ⟨min a.start b.start, max a.stop b.stop⟩

def Span.next (s : Span) : Span :=
  ⟨s.stop, s.stop + 1⟩

/-- A span and the line that is named with it. Lines count from one. -/
structure Mark where
  span : Span
  line : Nat
  deriving DecidableEq

end BisayaPlus
