import BisayaPlus.Proofs.Passing.Step

/-!
The readers of expressions pass their checks and move on. At the end of the source there is no
expression, and in front of it the first token of one is moved over.
-/

namespace BisayaPlus.Cursor

open Parse

variable {tokens : List Token} {pos : Nat}

mutual

/-- A level of operators passes all checks. -/
theorem passes_level (levels : List (List BinaryOp)) {pos : Nat} (h : Inside tokens pos)
    (budget : Nat) :
    Passes tokens pos (level · levels budget) (Beyond tokens pos) := by
  cases budget with
  | zero =>
    simp only [level]
    exact .spent
  | succ budget =>
    cases levels with
    | nil =>
      simp only [level]
      exact .forward (passes_unary h budget)
    | cons ops tighter =>
      simp only [level]
      refine .forward ?_
      refine (passes_level tighter h budget).bind ?_
      rintro left _ ⟨hleft, hlt⟩
      exact (passes_levelTail ops tighter left hleft budget).mono fun _ _ ⟨hinside, hle⟩ =>
        ⟨hinside, by omega⟩
termination_by budget

theorem passes_levelTail (ops : List BinaryOp) (tighter : List (List BinaryOp)) (left : Expr)
    {pos : Nat} (h : Inside tokens pos) (budget : Nat) :
    Passes tokens pos (levelTail · ops tighter left budget) (NotBefore tokens pos) := by
  cases budget with
  | zero =>
    simp only [levelTail]
    exact .spent
  | succ budget =>
    simp only [levelTail]
    refine (passes_acceptBinary ops h).bind ?_
    rintro op? pos' ⟨hop, hmoved⟩
    cases op? with
    | none => exact .pure ⟨hop, Nat.le_of_eq (Eq.symm hmoved)⟩
    | some op =>
      have hlt : pos < pos' := hmoved
      refine (passes_previous hop.within (by omega)).stay fun operator _ => ?_
      refine (passes_requireOperand operator hop).bind fun _ n hn => ?_
      subst hn
      refine (passes_level tighter hop budget).bind ?_
      rintro right _ ⟨hright, hlt'⟩
      exact (passes_levelTail ops tighter _ hright budget).mono fun _ _ ⟨hinside, hle⟩ =>
        ⟨hinside, by omega⟩
termination_by budget

theorem passes_unary {pos : Nat} (h : Inside tokens pos) (budget : Nat) :
    Passes tokens pos (unary · budget) (Beyond tokens pos) := by
  cases budget with
  | zero =>
    simp only [unary]
    exact .spent
  | succ budget =>
    simp only [unary]
    refine .forward ((passes_acceptUnary h).bind ?_)
    rintro op? pos' ⟨hop, hmoved⟩
    cases op? with
    | none =>
      obtain rfl : pos' = pos := hmoved
      exact passes_primary h budget
    | some op =>
      have hlt : pos < pos' := hmoved
      refine (passes_previous hop.within (by omega)).stay fun operator _ => ?_
      refine (passes_requireOperand operator hop).bind fun _ n hn => ?_
      subst hn
      refine (passes_unary hop budget).bind ?_
      rintro operand _ ⟨hoperand, hlt'⟩
      exact .pure ⟨hoperand, Nat.lt_trans hlt hlt'⟩
termination_by budget

theorem passes_primary {pos : Nat} (h : Inside tokens pos) (budget : Nat) :
    Passes tokens pos (primary · budget) (Beyond tokens pos) := by
  cases budget with
  | zero =>
    simp only [primary]
    exact .spent
  | succ budget =>
    simp only [primary]
    refine .forward ((passes_atSourceEnd h.within).stay ?_)
    rintro b ⟨t, ht, hb⟩
    cases b with
    | true => exact (passes_peek h.within).stay fun _ _ => .throw _
    | false =>
      have hk : t.kind ≠ .sourceEnd := fun hend => nomatch hb.2 hend
      refine (passes_advance_of_ne h ht hk).bind ?_
      rintro u n ⟨_, hn, hinside⟩
      have hlt : pos < n := by omega
      cases literal? u with
      | some value =>
        have hvalue : Passes tokens n (fun _ => liftExcept value) fun _ n' => n' = n :=
          .except fun _ => rfl
        refine hvalue.bind fun v n' hn' => .pure ?_
        subst hn'
        exact ⟨hinside, hlt⟩
      | none =>
        dsimp only
        cases u.kind with
        | identifier => exact .pure ⟨hinside, hlt⟩
        | symbol s =>
          by_cases hs : s = .leftParen
          · subst hs
            refine (passes_check _ hinside.within).stay fun b _ => ?_
            cases b with
            | true => exact (passes_peek hinside.within).stay fun _ _ => .throw _
            | false =>
              refine (passes_level _ hinside budget).bind ?_
              rintro inner m ⟨hinner, hm⟩
              refine (passes_consume _ _ hinner).bind ?_
              rintro close k ⟨hclose, hk⟩
              exact .pure ⟨hclose, by omega⟩
          · cases s <;> first | contradiction | exact .pure ⟨hinside, hlt⟩ | exact .throw _
        | _ => exact .throw _
termination_by budget

end

/-- An expression passes all checks and takes at least one token. -/
theorem passes_expression (h : Inside tokens pos) (budget : Nat) :
    Passes tokens pos (expression · budget) (Beyond tokens pos) :=
  passes_level BinaryOp.levels h budget

end BisayaPlus.Cursor
