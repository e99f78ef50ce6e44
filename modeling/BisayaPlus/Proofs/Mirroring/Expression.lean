import BisayaPlus.Proofs.Tracking

/-!
A cursor reads the expressions that the readers of expressions read. Its budget must have room for
each token that is left and for the calls before the next move.
-/

namespace BisayaPlus.Cursor

open Token Parse

variable {tokens ts rest : List Token} {stop last t : Token} {pos budget : Nat}

/-- An operand that begins at the stop. -/
theorem mirrors_primary_nil (budget : Nat) (h : Stands tokens stop last [] pos) :
    Mirrors tokens stop pos (primary .plain (budget + 1))
      (.error (noOperand stop) : Except Diagnostic (Reading Expr)) := by
  obtain ⟨pos', hadvance⟩ := advance_nil h
  rw [primary, Steps.forward_plain, noOperand]
  refine .step (atSourceEnd_nil h) ?_
  rcases h.kind_stop with hs | hs
  · have hne : (stop.kind == Token.Kind.sourceEnd) = false := by simp [hs]
    rw [hne]
    refine .step hadvance ?_
    simp only [taken, hs, literal?, reduceCtorEq, if_false]
    exact Mirrors.throw _
  · simp only [hs, beq_self_eq_true, if_true]
    exact .step (peek_nil h) (Mirrors.throw _)

theorem outcome_level_empty (stop : Token) (levels : List (List BinaryOp)) :
    outcome (Parse.level stop levels []) = .error (noOperand stop) := by
  induction levels with
  | nil => rw [outcome_level_nil, outcome_unary_nil]
  | cons ops tighter ih =>
    rw [outcome_level_cons, ih]
    rfl

theorem mirrors_parenthesised (h : Stands tokens stop t rest pos)
    (hin : Mirrors tokens stop pos (level .plain BinaryOp.levels budget)
      (outcome (Parse.level stop BinaryOp.levels rest))) :
    Mirrors tokens stop pos (do
      if ← check .plain (.symbol .rightParen) then
        throw ⟨.grammatical .emptyParentheses, ⟨t.span.join (← Steps.plain.peek).span, t.line⟩⟩
      else
        let inner ← level .plain BinaryOp.levels budget
        let _ ← consume .plain (.symbol .rightParen) .closingParenthesis
        return inner) (parenthesised stop t rest) := by
  refine .step (check_eq h (by simp)) ?_
  cases rest with
  | nil =>
    rw [outcome_level_empty] at hin
    exact bind_of_error hin
  | cons r others =>
    by_cases hr : r.kind = .symbol .rightParen
    · rw [parenthesised, if_pos hr]
      simp only [front?_cons, hr, decide_true, if_true]
      exact .step (peek_cons h) (Mirrors.throw _)
    · rw [parenthesised, if_neg hr]
      simp only [front?_cons, Option.some.injEq, hr, decide_false]
      refine hin.bind fun inner _ _ hinner => ?_
      exact (mirrors_consume _ hinner (by simp)).bind fun close _ _ hclose => .pure hclose

mutual

/-- The cursor reads expressions of a level as the parser does, with enough budget. -/
theorem mirrors_level (levels : List (List BinaryOp)) {last : Token} {ts : List Token}
    {pos budget : Nat} (h : Stands tokens stop last ts pos)
    (hb : 10 * ts.length + levels.length + 3 ≤ budget) :
    Mirrors tokens stop pos (level .plain levels budget)
      (outcome (Parse.level stop levels ts)) := by
  cases budget with
  | zero => omega
  | succ budget =>
    cases levels with
    | nil =>
      rw [level, Steps.forward_plain, outcome_level_nil]
      exact mirrors_unary h (by simpa using hb)
    | cons ops tighter =>
      rw [List.length_cons] at hb
      rw [level, Steps.forward_plain, outcome_level_cons]
      refine (mirrors_level tighter h (by omega)).bind fun q _ hq hstands => ?_
      have := rest_length_lt hq
      exact mirrors_levelTail ops tighter q.value hstands (by omega)
termination_by budget

theorem mirrors_levelTail (ops : List BinaryOp) (tighter : List (List BinaryOp)) (left : Expr)
    {last : Token} {ts : List Token} {pos budget : Nat} (h : Stands tokens stop last ts pos)
    (hb : 10 * ts.length + tighter.length + 1 ≤ budget) :
    Mirrors tokens stop pos (levelTail .plain ops tighter left budget)
      (outcome (Parse.levelTail stop ops tighter left last ts)) := by
  cases budget with
  | zero => omega
  | succ budget =>
    rw [levelTail]
    cases ts with
    | nil =>
      rw [outcome_levelTail_nil]
      exact .step (acceptBinary_nil h) (.pure h)
    | cons t rest =>
      rw [List.length_cons] at hb
      cases hop : binaryOp? ops t with
      | none =>
        rw [outcome_levelTail_of_none hop]
        exact .step (acceptBinary_of_none h hop) (.pure h)
      | some op =>
        rw [outcome_levelTail_of_some hop]
        refine .step (acceptBinary_of_some h hop) (.step (previous_eq h.move) ?_)
        refine mirrors_require h.move ?_
        refine (mirrors_level tighter h.move (by omega)).bind fun q _ hq hstands => ?_
        have := rest_length_lt hq
        exact mirrors_levelTail ops tighter (joinOperands op t left q.value) hstands (by omega)
termination_by budget

theorem mirrors_unary {last : Token} {ts : List Token} {pos budget : Nat}
    (h : Stands tokens stop last ts pos) (hb : 10 * ts.length + 2 ≤ budget) :
    Mirrors tokens stop pos (unary .plain budget) (outcome (Parse.unary stop ts)) := by
  cases budget with
  | zero => omega
  | succ budget =>
    rw [unary, Steps.forward_plain]
    cases ts with
    | nil =>
      rw [outcome_unary_nil]
      obtain ⟨less, rfl⟩ : ∃ less, budget = less + 1 := ⟨budget - 1, by omega⟩
      exact .step (acceptUnary_nil h) (mirrors_primary_nil less h)
    | cons t rest =>
      rw [List.length_cons] at hb
      refine .step (acceptUnary_cons h) ?_
      cases hop : unaryOp? t rest with
      | none =>
        rw [outcome_unary_of_none hop]
        exact mirrors_primary h (by omega)
      | some op =>
        rw [outcome_unary_of_some hop]
        refine .step (previous_eq h.move) (mirrors_require h.move ?_)
        exact (mirrors_unary h.move (by omega)).bind fun q _ hq hstands => .pure hstands
termination_by budget

theorem mirrors_primary {last t : Token} {rest : List Token} {pos budget : Nat}
    (h : Stands tokens stop last (t :: rest) pos) (hb : 10 * rest.length + 10 ≤ budget) :
    Mirrors tokens stop pos (primary .plain budget) (outcome (Parse.primary stop t rest)) := by
  cases budget with
  | zero => omega
  | succ budget =>
    rw [primary, Steps.forward_plain, outcome_primary]
    refine .step (atSourceEnd_cons h) (.step (advance_cons h) ?_)
    cases hl : literal? t with
    | some value =>
      cases value with
      | ok v => exact .step rfl (.pure h.move)
      | error d => exact Mirrors.throw d
    | none =>
      cases hk : t.kind with
      | identifier => exact .pure h.move
      | symbol s =>
        by_cases hs : s = .leftParen
        · subst hs
          have hlevels : BinaryOp.levels.length = 6 := rfl
          exact mirrors_parenthesised h.move (mirrors_level BinaryOp.levels h.move (by omega))
        · cases s <;> first | contradiction | exact .pure h.move | exact Mirrors.throw _
      | _ => exact Mirrors.throw _
termination_by budget

end

/-- The cursor reads an expression as the parser does. -/
theorem mirrors_expression (h : Stands tokens stop last ts pos)
    (hb : 10 * ts.length + 9 ≤ budget) :
    Mirrors tokens stop pos (expression .plain budget) (outcome (Parse.expression stop ts)) :=
  mirrors_level BinaryOp.levels h hb

end BisayaPlus.Cursor
