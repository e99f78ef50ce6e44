import BisayaPlus.Proofs.Mirroring.Statement

/-!
Nothing after the end of a program matters. The cursor, which has all tokens before it, reads what
is read of the tokens up to the first that ends the body.
-/

namespace BisayaPlus

open Token Parse

namespace Cursor

variable {tokens ts : List Token} {stop last : Token} {pos : Nat}

/-- Nothing but statements may stand in front of the end of a program. -/
def requireEnd (q : Reading (List Stmt)) : Except Diagnostic (Reading (List Stmt)) :=
  match q.rest with
  | t :: _ => .error (blame (.notStatement t.lexeme) t)
  | [] => .ok q

theorem requireEnd_bind (x : Except Diagnostic (Reading (List Stmt))) (s : Stmt) :
    (x >>= fun others => .ok ⟨s :: others.value, others.last, others.rest⟩) >>= requireEnd =
      (x >>= requireEnd) >>= fun others => .ok ⟨s :: others.value, others.last, others.rest⟩ := by
  cases x with
  | error d => rfl
  | ok q =>
    obtain ⟨ss, last, rest⟩ := q
    cases rest <;> rfl

/-- The cursor reads statements up to the end of the program, as the parser does if it requires the
end behind them. -/
theorem mirrors_body {last : Token} {ts : List Token} {pos budget : Nat}
    (h : Stands tokens stop last ts pos) (hb : 10 * ts.length + 12 ≤ budget) :
    Mirrors tokens stop pos (body .plain budget)
      (outcome (Parse.statements stop last ts) >>= requireEnd) := by
  cases budget with
  | zero => omega
  | succ budget =>
    rw [body]
    cases ts with
    | nil =>
      rw [outcome_statements_of_atEnd (.inl rfl)]
      exact .step (atBodyEnd_nil h) (.pure h)
    | cons t rest =>
      have hstatement := mirrors_statement h (Nat.le_of_succ_le_succ hb)
      refine .step (atBodyEnd_cons h) ?_
      by_cases hr : t.kind = .symbol .rightBrace
      · have hend : AtEnd (t :: rest) := .inr (congrArg some hr)
        rw [outcome_statement_cons, statementAt, hr] at hstatement
        rw [outcome_statements_of_atEnd hend]
        exact bind_of_error hstatement
      · have hend : ¬AtEnd (t :: rest) := by simpa [AtEnd] using hr
        rw [outcome_statements_of_not_atEnd hend, bind_assoc]
        refine hstatement.bind fun first _ hfirst hstands => ?_
        have := rest_length_lt hfirst
        rw [requireEnd_bind]
        exact (mirrors_body hstands (by omega)).bind fun others _ _ hothers => .pure hothers
termination_by budget

/-- Wherever a cursor stands, there is a token that it can look at. -/
theorem exists_atSourceEnd (hne : tokens ≠ []) (pos : Nat) :
    ∃ b, atSourceEnd .plain tokens pos = some (.ok (b, pos)) ∧
      ∃ t, Steps.plain.peek tokens pos = some (.ok (t, pos)) := by
  have hlt : min pos (tokens.length - 1) < tokens.length := by
    have := List.length_pos_iff.2 hne
    omega
  have hpeek : Steps.plain.peek tokens pos =
      some (.ok (tokens[min pos (tokens.length - 1)], pos)) := by
    have hget : token (min pos (tokens.length - 1)) tokens pos =
        some (.ok (tokens[min pos (tokens.length - 1)], pos)) := by
      rw [token, List.getElem?_eq_getElem hlt]
      rfl
    exact hget
  exact ⟨_, bind_of_ok hpeek, _, hpeek⟩

theorem rest_of_requireEnd {x : Except Diagnostic (Reading (List Stmt))} {q : Reading (List Stmt)}
    (h : x >>= requireEnd = .ok q) : q.rest = [] := by
  obtain ⟨p, -, hp⟩ := Except.bind_eq_ok_iff.1 h
  unfold requireEnd at hp
  split at hp
  · cases hp
  · cases hp
    assumption

/-- What stands behind the last keyword of a program has no effect. -/
theorem programEnd_of_eq (h : Stands tokens stop last [] pos)
    (hk : stop.kind = .keyword .katapusan) :
    ∃ pos', programEnd .plain tokens pos = some (.ok ((), pos')) := by
  have hcheck : check .plain (.keyword .katapusan) tokens pos = some (.ok (true, pos)) := by
    rw [check_nil h, hk]
    rfl
  have hne : tokens ≠ [] := List.ne_nil_of_length_pos (Nat.zero_lt_of_lt h.pos_lt)
  obtain ⟨pos', hadvance⟩ := advance_nil h
  obtain ⟨b, hend, t, hpeek⟩ := exists_atSourceEnd hne pos'
  have hconsume : consume .plain (.keyword .katapusan) .programEnd tokens pos =
      some (.ok (taken stop last [], pos')) := by
    rw [consume, bind_of_ok hcheck]
    exact hadvance
  refine ⟨pos', ?_⟩
  rw [programEnd, bind_of_ok hconsume, bind_of_ok hend]
  cases b with
  | true => rfl
  | false => exact bind_of_ok hpeek

/-- Where the last keyword is missing, the program is refused for it. -/
theorem programEnd_of_ne (h : Stands tokens stop last [] pos)
    (hk : stop.kind ≠ .keyword .katapusan) :
    programEnd .plain tokens pos = some (.error (unmet stop last .programEnd [])) := by
  have hcheck : check .plain (.keyword .katapusan) tokens pos = some (.ok (false, pos)) := by
    rw [check_nil h, beq_eq_false_iff_ne.2 hk, Bool.and_false]
  exact bind_of_error (consume_nil _ h hcheck)

/-- A program behind its first keyword. -/
theorem run_afterStart {budget : Nat} (h : Stands tokens stop last ts pos)
    (hb : 10 * ts.length + 12 ≤ budget) :
    ∃ r, (do
      let statements ← body .plain budget
      programEnd .plain
      return (⟨statements⟩ : Program)) tokens pos = some r ∧
      r.map Prod.fst = (Program.body last stop ts).map fun q => ⟨q.value⟩ := by
  have hbody := mirrors_body h hb
  have heq : Program.body last stop ts =
      (outcome (Parse.statements stop last ts) >>= requireEnd) >>= fun q =>
        if stop.kind = .keyword .katapusan then .ok q
        else .error (unmet stop q.last .programEnd []) := by
    rw [Program.body, bind_assoc]
    congr 1
    funext ⟨ss, last', rest⟩
    cases rest <;> rfl
  rw [heq]
  cases hr : outcome (Parse.statements stop last ts) >>= requireEnd with
  | error d =>
    rw [hr] at hbody
    exact ⟨.error d, bind_of_error hbody, rfl⟩
  | ok q =>
    rw [hr] at hbody
    obtain ⟨pos', hrun, hstands⟩ := hbody
    rw [rest_of_requireEnd hr] at hstands
    by_cases hk : stop.kind = .keyword .katapusan
    · obtain ⟨pos'', hend⟩ := programEnd_of_eq hstands hk
      refine ⟨.ok (⟨q.value⟩, pos''), (bind_of_ok hrun).trans (bind_of_ok hend), ?_⟩
      simp only [Bind.bind, Except.bind, hk, if_true]
      rfl
    · refine ⟨_, (bind_of_ok hrun).trans (bind_of_error (programEnd_of_ne hstands hk)), ?_⟩
      simp only [Bind.bind, Except.bind, hk, if_false]
      rfl

end Cursor

namespace Program

open Cursor

theorem peek_first (t : Token) (rest : List Token) :
    Steps.plain.peek (t :: rest) 0 = some (.ok (t, 0)) :=
  rfl

theorem atSourceEnd_first (t : Token) (rest : List Token) :
    atSourceEnd .plain (t :: rest) 0 = some (.ok (t.kind == .sourceEnd, 0)) :=
  bind_of_ok (peek_first t rest)

theorem check_first {t : Token} {kind : Token.Kind} (rest : List Token)
    (hkind : kind ≠ .sourceEnd) :
    check .plain kind (t :: rest) 0 = some (.ok (t.kind == kind, 0)) := by
  rw [check, bind_of_ok (atSourceEnd_first t rest)]
  by_cases hs : t.kind = .sourceEnd
  · have hne : (t.kind == kind) = false := beq_eq_false_iff_ne.2 (hs ▸ hkind.symm)
    rw [hs] at hne ⊢
    rw [hne]
    rfl
  · rw [beq_eq_false_iff_ne.2 hs]
    exact bind_of_ok (peek_first t rest)

/-- A program behind its first keyword, up to the token that ends it. -/
theorem byCursor_of_start {start stop : Token} {ts after : List Token}
    (hk : start.kind = .keyword .sugod) (hstop : endsBody stop = true)
    (hts : ∀ t ∈ ts, endsBody t = false) :
    byCursor (start :: (ts ++ stop :: after)) =
      some (ofTokens (start :: (ts ++ stop :: after))) := by
  have hstands : Stands (start :: (ts ++ stop :: after)) stop start ts 1 :=
    ⟨⟨[], after, rfl, rfl⟩, hstop, hts⟩
  have hend : atSourceEnd .plain (start :: (ts ++ stop :: after)) 0 = some (.ok (false, 0)) := by
    rw [atSourceEnd_first, hk]
    rfl
  have hconsume : consume .plain (.keyword .sugod) .programStart
      (start :: (ts ++ stop :: after)) 0 = some (.ok (start, 1)) := by
    rw [consume, bind_of_ok (check_first _ (by simp)), hk]
    refine (advance_of_atSourceEnd hend).trans ?_
    exact previous_eq hstands
  have hbudget : 10 * ts.length + 12 ≤ enough (start :: (ts ++ stop :: after)) := by
    simp only [enough, List.length_cons, List.length_append]
    omega
  obtain ⟨r, hr, hmap⟩ := run_afterStart hstands hbudget
  have hrun : program .plain (enough (start :: (ts ++ stop :: after)))
      (start :: (ts ++ stop :: after)) 0 = some r :=
    (bind_of_ok hconsume).trans hr
  rw [ofTokens_eq_body hk hstop hts, ← hmap]
  exact congrArg (Option.map (Except.map Prod.fst)) hrun

/-- A list of tokens that does not begin with the first keyword. -/
theorem byCursor_of_ne {start : Token} (rest : List Token) (hk : start.kind ≠ .keyword .sugod) :
    byCursor (start :: rest) = some (ofTokens (start :: rest)) := by
  have hget : (get : Cursor Nat) (start :: rest) 0 = some (.ok (0, 0)) := rfl
  have hspan : faultSpan .plain (start :: rest) 0 = some (.ok (start.span, 0)) := by
    rw [faultSpan, bind_of_ok hget, bind_of_ok (atSourceEnd_first start rest)]
    simp only [Nat.lt_irrefl, decide_false, Bool.and_false]
    exact bind_of_ok (peek_first start rest)
  have hconsume : consume .plain (.keyword .sugod) .programStart (start :: rest) 0 =
      some (.error (blame (.expected .programStart
        (if start.kind = .sourceEnd then none else some start.lexeme)) start)) := by
    rw [consume, bind_of_ok (check_first rest (by simp)), beq_eq_false_iff_ne.2 hk]
    exact (bind_of_ok (peek_first start rest)).trans (bind_of_ok hspan)
  have hrun : program .plain (enough (start :: rest)) (start :: rest) 0 = _ :=
    bind_of_error hconsume
  have hread : ofTokens (start :: rest) = .error (blame (.expected .programStart
      (if start.kind = .sourceEnd then none else some start.lexeme)) start) := by
    rw [ofTokens, if_neg hk]
    split <;> rfl
  rw [hread]
  exact congrArg (Option.map (Except.map Prod.fst)) hrun

/-- Reading by a cursor does what reading does. -/
theorem byCursor_eq_some {before after : List Token} {stop : Token}
    (hbefore : ∀ t ∈ before, endsBody t = false) (hstop : endsBody stop = true) :
    byCursor (before ++ stop :: after) = some (ofTokens (before ++ stop :: after)) := by
  cases before with
  | nil =>
    refine byCursor_of_ne after fun hk => ?_
    simp [endsBody, hk] at hstop
  | cons start ts =>
    by_cases hk : start.kind = .keyword .sugod
    · exact byCursor_of_start hk hstop fun t ht => hbefore t (List.mem_cons_of_mem start ht)
    · exact byCursor_of_ne _ hk

/-- What `ofTokens` gives depends on the tokens up to the first that ends the body. -/
theorem ofTokens_append_eq {before after after' : List Token} {stop : Token}
    (hbefore : ∀ t ∈ before, endsBody t = false) (hstop : endsBody stop = true) :
    ofTokens (before ++ stop :: after) = ofTokens (before ++ stop :: after') := by
  cases before with
  | nil =>
    have hk : stop.kind ≠ .keyword .sugod := fun hk => by simp [endsBody, hk] at hstop
    simp only [List.nil_append, ofTokens, hk, if_false]
  | cons start ts =>
    have hts : ∀ t ∈ ts, endsBody t = false := fun t ht =>
      hbefore t (List.mem_cons_of_mem start ht)
    by_cases hk : start.kind = .keyword .sugod
    · rw [List.cons_append, List.cons_append, ofTokens_eq_body hk hstop hts,
        ofTokens_eq_body hk hstop hts]
    · simp only [List.cons_append, ofTokens, hk, if_false]

/-- Tokens behind the end of a program have no effect on how it is read, though the cursor has them
all before it. -/
theorem byCursor_append {before after after' : List Token} {stop : Token}
    (hbefore : ∀ t ∈ before, endsBody t = false) (hstop : endsBody stop = true) :
    ∃ r, byCursor (before ++ stop :: after) = some r ∧
      byCursor (before ++ stop :: after') = some r ∧
      ofTokens (before ++ stop :: after) = r ∧ ofTokens (before ++ stop :: after') = r := by
  have hsame : ofTokens (before ++ stop :: after) = ofTokens (before ++ stop :: after') :=
    ofTokens_append_eq hbefore hstop
  exact ⟨_, byCursor_eq_some hbefore hstop, hsame ▸ byCursor_eq_some hbefore hstop, rfl, hsame.symm⟩

def emptyStart : Token :=
  ⟨.keyword .sugod, "SUGOD", ⟨0, 5⟩, 1⟩

def emptyClose : Token :=
  ⟨.keyword .katapusan, "KATAPUSAN", ⟨6, 15⟩, 2⟩

theorem byCursor_append_emptyClose :
    (∀ t ∈ [emptyStart], endsBody t = false) ∧ endsBody emptyClose = true ∧
      ∃ r, byCursor ([emptyStart] ++ emptyClose :: [⟨.sourceEnd, "", ⟨15, 15⟩, 2⟩]) = some r ∧
        byCursor ([emptyStart] ++ emptyClose ::
          [⟨.identifier, "x", ⟨16, 17⟩, 2⟩, ⟨.sourceEnd, "", ⟨17, 17⟩, 2⟩]) = some r ∧
        ofTokens ([emptyStart] ++ emptyClose :: [⟨.sourceEnd, "", ⟨15, 15⟩, 2⟩]) = r ∧
        ofTokens ([emptyStart] ++ emptyClose ::
          [⟨.identifier, "x", ⟨16, 17⟩, 2⟩, ⟨.sourceEnd, "", ⟨17, 17⟩, 2⟩]) = r := by
  have hbefore : ∀ t ∈ [emptyStart], endsBody t = false := by decide
  exact ⟨hbefore, rfl, byCursor_append hbefore rfl⟩

end Program

end BisayaPlus
