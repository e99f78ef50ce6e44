import BisayaPlus.Proofs.Mirroring.SimpleStatement

/-!
A cursor reads the statements and blocks that the readers of them read.
-/

namespace BisayaPlus.Cursor

open Token Parse

variable {tokens : List Token} {stop : Token}

mutual

/-- The cursor reads a statement as the parser does. -/
theorem mirrors_statement {last t : Token} {rest : List Token} {pos budget : Nat}
    (h : Stands tokens stop last (t :: rest) pos) (hb : 10 * (t :: rest).length + 11 ≤ budget) :
    Mirrors tokens stop pos (statement .plain budget)
      (outcome (Parse.statement stop last (t :: rest))) := by
  cases budget with
  | zero => omega
  | succ budget =>
    rw [statement, Steps.forward_plain, outcome_statement_cons]
    refine .step (peek_cons h) ?_
    unfold statementAt
    have hrest : 10 * rest.length + 11 ≤ budget := by
      rw [List.length_cons] at hb
      omega
    cases hk : t.kind with
    | identifier => exact (mirrors_assignment h (by omega)).bind fun a _ _ ha => .pure ha
    | sourceEnd => exact absurd hk h.kind_ne_sourceEnd
    | keyword k =>
      cases k with
      | mugna =>
        exact .step (advance_cons h) (mirrors_declaration false hk h.move (by omega))
      | ipakita => exact .step (advance_cons h) (mirrors_output h.move (by omega))
      | dawat => exact .step (advance_cons h) (mirrors_input h.move (by omega))
      | kung => exact .step (advance_cons h) (mirrors_conditional h.move (by omega))
      | alang => exact .step (advance_cons h) (mirrors_loop h.move (by omega))
      | _ => exact Mirrors.throw _
    | _ => exact Mirrors.throw _
termination_by budget

theorem mirrors_conditional {last : Token} {ts : List Token} {pos budget : Nat}
    (h : Stands tokens stop last ts pos) (hb : 10 * ts.length + 11 ≤ budget) :
    Mirrors tokens stop pos (conditional .plain budget)
      (outcome (Parse.conditional stop last ts)) := by
  cases budget with
  | zero => omega
  | succ budget =>
    rw [conditional, outcome_conditional]
    refine .step (previous_eq h) ?_
    refine (mirrors_branch .kung h (by omega)).bind fun first _ hfirst hstands => ?_
    have := rest_length_lt hfirst
    refine (mirrors_branches hstands (by omega)).bind fun others _ hothers hrest => ?_
    have := rest_length_lt hothers
    by_cases hw : front? others.rest = some (.keyword .kungWala)
    · obtain ⟨word, us, hus, hk⟩ := exists_cons_of_front? hw
      rw [hus, List.length_cons] at this
      rw [hus] at hrest ⊢
      rw [accepted_of_eq hk]
      refine .step (accept_of_eq hrest (by simp) hk) ?_
      refine (mirrors_block .kungWala hrest.move (by omega)).bind fun otherwise _ _ hblock => ?_
      exact .step (previous_eq hblock) (.pure hblock)
    · rw [accepted_of_ne hw]
      refine .step (accept_of_ne hrest (by simp) hw) ?_
      exact .step (previous_eq hrest) (.pure hrest)
termination_by budget

theorem mirrors_branches {last : Token} {ts : List Token} {pos budget : Nat}
    (h : Stands tokens stop last ts pos) (hb : 10 * ts.length + 10 ≤ budget) :
    Mirrors tokens stop pos (branches .plain budget) (outcome (Parse.branches stop last ts)) := by
  cases budget with
  | zero => omega
  | succ budget =>
    rw [branches, outcome_branches]
    by_cases hw : front? ts = some (.keyword .kungDili)
    · obtain ⟨word, us, rfl, hk⟩ := exists_cons_of_front? hw
      rw [List.length_cons] at hb
      rw [accepted_of_eq hk]
      refine .step (accept_of_eq h (by simp) hk) ?_
      refine (mirrors_branch .kungDili h.move (by omega)).bind fun first _ hfirst hstands => ?_
      have := rest_length_lt hfirst
      exact (mirrors_branches hstands (by omega)).bind fun others _ _ hothers => .pure hothers
    · rw [accepted_of_ne hw]
      exact .step (accept_of_ne h (by simp) hw) (.pure h)
termination_by budget

theorem mirrors_branch (owner : Owner) {last : Token} {ts : List Token} {pos budget : Nat}
    (h : Stands tokens stop last ts pos) (hb : 10 * ts.length + 10 ≤ budget) :
    Mirrors tokens stop pos (branch .plain owner budget)
      (outcome (Parse.branch stop owner ts)) := by
  cases budget with
  | zero => omega
  | succ budget =>
    rw [branch, outcome_branch]
    refine .step (check_eq h (by simp)) ?_
    by_cases hp : front? ts = some (.symbol .leftParen)
    · simp only [hp, decide_true, if_true]
      refine (mirrors_expression h (by omega)).bind fun condition _ hcondition hstands => ?_
      have := rest_length_lt hcondition
      exact (mirrors_block owner hstands (by omega)).bind fun body _ _ hbody => .pure hbody
    · simp only [hp, decide_false, if_false]
      exact .step (peek_eq h) (Mirrors.throw _)
termination_by budget

theorem mirrors_loop {last : Token} {ts : List Token} {pos budget : Nat}
    (h : Stands tokens stop last ts pos) (hb : 10 * ts.length + 10 ≤ budget) :
    Mirrors tokens stop pos (loop .plain budget) (outcome (Parse.loop stop last ts)) := by
  cases budget with
  | zero => omega
  | succ budget =>
    rw [loop, outcome_loop]
    refine .step (previous_eq h) ?_
    refine (mirrors_consume _ h (by simp)).bind fun word _ hword hstands => ?_
    have := rest_length_lt hword
    refine (mirrors_loopHeader hstands (by omega)).bind fun header _ hheader hrest => ?_
    have := rest_length_lt hheader
    exact (mirrors_block .alangSa hrest (by omega)).bind fun body _ _ hbody => .pure hbody
termination_by budget

/-- The cursor reads a block as the parser does. -/
theorem mirrors_block (owner : Owner) {last : Token} {ts : List Token} {pos budget : Nat}
    (h : Stands tokens stop last ts pos) (hb : 10 * ts.length + 10 ≤ budget) :
    Mirrors tokens stop pos (block .plain owner budget)
      (outcome (Parse.block stop owner last ts)) := by
  cases budget with
  | zero => omega
  | succ budget =>
    rw [block, Steps.forward_plain, outcome_block]
    refine (mirrors_consume _ h (by simp)).bind fun word _ hword hstands => ?_
    have := rest_length_lt hword
    refine (mirrors_consume _ hstands (by simp)).bind fun opening _ hopening hbody => ?_
    have := rest_length_lt hopening
    refine (mirrors_statements hbody (by omega)).bind fun body _ _ hrest => ?_
    exact (mirrors_consume _ hrest (by simp)).bind fun close _ _ hclose => .pure hclose
termination_by budget

/-- The cursor reads statements one after another as the parser does. -/
theorem mirrors_statements {last : Token} {ts : List Token} {pos budget : Nat}
    (h : Stands tokens stop last ts pos) (hb : 10 * ts.length + 12 ≤ budget) :
    Mirrors tokens stop pos (statements .plain budget)
      (outcome (Parse.statements stop last ts)) := by
  cases budget with
  | zero => omega
  | succ budget =>
    rw [statements]
    refine .step (check_eq h (by simp)) ?_
    cases ts with
    | nil =>
      rw [outcome_statements_of_atEnd (.inl rfl)]
      exact .step (atBodyEnd_nil h) (.pure h)
    | cons t rest =>
      refine .step (atBodyEnd_cons h) ?_
      by_cases hr : t.kind = .symbol .rightBrace
      · have hend : AtEnd (t :: rest) := .inr (congrArg some hr)
        rw [outcome_statements_of_atEnd hend]
        simp only [front?_cons, hr, decide_true, Bool.true_or, if_true]
        exact .pure h
      · have hend : ¬AtEnd (t :: rest) := by simpa [AtEnd] using hr
        rw [outcome_statements_of_not_atEnd hend]
        simp only [front?_cons, Option.some.injEq, hr, decide_false, Bool.false_or]
        refine (mirrors_statement h (by omega)).bind fun first _ hfirst hstands => ?_
        have := rest_length_lt hfirst
        exact (mirrors_statements hstands (by omega)).bind fun others _ _ hothers =>
          .pure hothers
termination_by budget

end

end BisayaPlus.Cursor
