import BisayaPlus.Proofs.Cursor

/-!
A cursor that checks what it does. There is no result if it looks beyond the first end of the source
or in front of the first token, if it moves beyond the first end of the source, or if a reader of a
statement, a declaration, an assignment, a block, an initial value or an expression returns and has
not moved. The readers are those of the cursor that checks nothing, made of other steps.
-/

namespace BisayaPlus

namespace Cursor

def Within (tokens : List Token) (i : Nat) : Prop :=
  i < tokens.length ∧ ∀ t ∈ tokens.take i, t.kind ≠ .sourceEnd

instance (tokens : List Token) (i : Nat) : Decidable (Within tokens i) :=
  inferInstanceAs (Decidable (_ ∧ _))

/-- The token at a position, which must not be beyond the first end of the source. -/
def look (i : Nat) : Cursor Token := fun tokens pos =>
  if Within tokens i then token i tokens pos else none

def moving {α : Type} (act : Cursor α) : Cursor α := fun tokens pos =>
  match act tokens pos with
  | some (.ok (a, pos')) => if pos < pos' then some (.ok (a, pos')) else none
  | r => r

/-- Steps that check where they look and whether a reader moves. -/
def Steps.checked : Steps where
  token? i := do return some (← look i)
  peek := do look (← get)
  previous := fun tokens pos => if 0 < pos then look (pos - 1) tokens pos else none
  move := fun tokens pos => if Within tokens (pos + 1) then some (.ok ((), pos + 1)) else none
  forward := moving

@[simp] theorem Steps.forward_checked {α : Type} (act : Cursor α) :
    checked.forward act = moving act := rfl

end Cursor

def Program.byCheckedCursor (tokens : List Token) : Option (Except Diagnostic Program) :=
  (Cursor.program .checked (Cursor.enough tokens) tokens 0).run.map fun r => r.map Prod.fst

end BisayaPlus
