import BisayaPlus.Proofs.Steps

/-!
A run that ends within a budget ends in the same way within every larger one. The end of a
statement is then a matter of the statement and the machine alone.
-/

namespace BisayaPlus

namespace Action

variable {α β : Type}

def hasEnded : EStateM.Result Interrupt Machine α → Bool
  | .error .budgetSpent _ => false
  | _ => true

def Extends (wide narrow : Action α) : Prop :=
  ∀ m, hasEnded (narrow m) = true → wide m = narrow m

theorem Extends.refl (act : Action α) : Extends act act := by
  intro m _
  rfl

/-- Two actions in sequence do what they did before, if each of them does. -/
theorem Extends.bind {x x' : Action α} {f f' : α → Action β} (hx : Extends x' x)
    (hf : ∀ a, Extends (f' a) (f a)) : Extends (x' >>= f') (x >>= f) := by
  intro m hend
  cases hr : x m with
  | ok a m' =>
    have hx' : x' m = .ok a m' := (hx m (by rw [hr]; rfl)).trans hr
    rw [bind_apply_of_ok hr] at hend ⊢
    rw [bind_apply_of_ok hx']
    exact hf a m' hend
  | error i m' =>
    rw [bind_apply_of_error hr] at hend ⊢
    cases i with
    | fault d =>
      have hx' : x' m = .error (.fault d) m' := (hx m (by rw [hr]; rfl)).trans hr
      rw [bind_apply_of_error hx']
    | budgetSpent => cases hend

/-- A loop that ended within its turns does the same with more of them. -/
theorem extends_repeatWhile {test : Action Bool} {turn turn' : Action Unit}
    (hturn : Extends turn' turn) {budget budget' : Nat} (h : budget ≤ budget') :
    Extends (repeatWhile test turn' budget') (repeatWhile test turn budget) := by
  induction budget generalizing budget' with
  | zero =>
    intro m hend
    cases hend
  | succ budget ih =>
    cases budget' with
    | zero => cases h
    | succ budget' =>
      refine (Extends.refl test).bind fun holds => ?_
      cases holds with
      | false => exact .refl _
      | true => exact hturn.bind fun _ => ih (Nat.le_of_succ_le_succ h)

end Action

open BisayaPlus.Action

variable {budget budget' : Nat}

mutual

/-- A larger budget changes nothing for a statement that ended within a smaller one. -/
theorem Stmt.extends_exec (h : budget ≤ budget') (s : Stmt) :
    Extends (s.exec budget') (s.exec budget) := by
  cases s with
  | declaration | assignment | output | input =>
    exact .refl _
  | conditional first others otherwise span =>
    exact Branch.extends_exec h first
      (Branch.extends_execAll h others (Block.extends_execOptional h otherwise))
  | loop initializer condition increment body span =>
    have hturn := (Block.extends_exec h body).bind fun _ => .refl increment.exec
    exact (Stmt.extends_exec h initializer).bind fun _ => extends_repeatWhile hturn h

theorem Branch.extends_exec (h : budget ≤ budget') (b : Branch) {narrow wide : Action Unit}
    (ha : Extends wide narrow) : Extends (b.exec budget' wide) (b.exec budget narrow) := by
  cases b with
  | mk condition body =>
    refine (Extends.refl _).bind fun holds => ?_
    cases holds with
    | false => exact ha
    | true => exact Block.extends_exec h body

theorem Branch.extends_execAll (h : budget ≤ budget') (bs : List Branch)
    {narrow wide : Action Unit} (ha : Extends wide narrow) :
    Extends (Branch.execAll budget' bs wide) (Branch.execAll budget bs narrow) := by
  cases bs with
  | nil =>
    exact ha
  | cons b bs =>
    exact Branch.extends_exec h b (Branch.extends_execAll h bs ha)

theorem Block.extends_exec (h : budget ≤ budget') (b : Block) :
    Extends (b.exec budget') (b.exec budget) := by
  cases b with
  | mk statements span =>
    exact Stmt.extends_execAll h statements

theorem Block.extends_execOptional (h : budget ≤ budget') (b : Option Block) :
    Extends (Block.execOptional budget' b) (Block.execOptional budget b) := by
  cases b with
  | none =>
    exact .refl _
  | some b =>
    exact Block.extends_exec h b

theorem Stmt.extends_execAll (h : budget ≤ budget') (ss : List Stmt) :
    Extends (Stmt.execAll budget' ss) (Stmt.execAll budget ss) := by
  cases ss with
  | nil =>
    exact .refl _
  | cons s ss =>
    exact (Stmt.extends_exec h s).bind fun _ => Stmt.extends_execAll h ss

end

/-- The statement ends on the machine, with a result that no larger budget changes. -/
def Stmt.Ends (s : Stmt) (m : Machine) (r : EStateM.Result Interrupt Machine Unit) : Prop :=
  ∃ budget, s.exec budget m = r ∧ hasEnded r = true

/-- A statement ends in one way only. -/
theorem Stmt.Ends.unique {s : Stmt} {m : Machine} {r r' : EStateM.Result Interrupt Machine Unit}
    (h : s.Ends m r) (h' : s.Ends m r') : r = r' := by
  obtain ⟨budget, rfl, hend⟩ := h
  obtain ⟨budget', rfl, hend'⟩ := h'
  rcases Nat.le_total budget budget' with hle | hle
  · exact (Stmt.extends_exec hle s m hend).symm
  · exact Stmt.extends_exec hle s m hend'

end BisayaPlus
