import BisayaPlus.Proofs.Mirroring.Expression

/-!
A cursor reads the simple statements and the headers of loops that the readers of them read.
-/

namespace BisayaPlus.Cursor

open Token Parse

variable {α : Type} {tokens ts rest : List Token} {stop last t : Token} {pos budget : Nat}

theorem mirrors_except {x : Except Diagnostic α} (h : Stands tokens stop last ts pos) :
    Mirrors tokens stop pos (liftExcept x : Cursor α) (x >>= fun v => .ok ⟨v, last, ts⟩) := by
  cases x with
  | ok v => exact ⟨pos, rfl, h⟩
  | error d => exact Mirrors.throw d

theorem sign_cons (h : Stands tokens stop last (t :: rest) pos) : sign .plain tokens pos =
    some (.ok (factor? t, if (factor? t).isSome then pos + 1 else pos)) := by
  rw [sign, factor?]
  by_cases hm : t.kind = .symbol .minus
  · rw [bind_of_ok (accept_of_eq h (by simp) hm), if_pos hm]
    rfl
  rw [bind_of_ok (accept_of_ne h (by simp) (by simpa using hm)), if_neg hm]
  by_cases hp : t.kind = .symbol .plus
  · refine (bind_of_ok (accept_of_eq h (by simp) hp)).trans ?_
    rw [if_pos hp]
    rfl
  · refine (bind_of_ok (accept_of_ne h (by simp) (by simpa using hp))).trans ?_
    rw [if_neg hp]
    rfl

theorem sign_nil (h : Stands tokens stop last [] pos) :
    sign .plain tokens pos = some (.ok (none, pos)) := by
  rw [sign, bind_of_ok (accept_of_ne h (by simp) (by simp))]
  exact bind_of_ok (accept_of_ne h (by simp) (by simp))

/-- The literal behind a sign or an equal sign. At the stop one of these is taken again, or the stop
itself, and neither is a literal. -/
theorem mirrors_signedLiteral (factor : Option Number) {s : Symbol} (hlast : last.kind = .symbol s)
    (h : Stands tokens stop last ts pos) : Mirrors tokens stop pos (do
      let t ← advance .plain
      match signedLiteral? factor t with
      | some value => liftExcept value
      | none => throw (notLiteral t)) (outcome (signedLiteral stop last factor ts)) := by
  rw [outcome_signedLiteral]
  cases ts with
  | nil =>
    obtain ⟨pos', hadvance⟩ := advance_nil h
    have htaken : signedLiteral? factor (taken stop last []) = none := by
      rw [taken]
      rcases h.kind_stop with hs | hs <;> simp [hs, hlast, signedLiteral?, literal?]
    refine .step hadvance ?_
    simp only [htaken]
    exact Mirrors.throw _
  | cons t rest =>
    refine .step (advance_cons h) ?_
    dsimp only
    cases signedLiteral? factor t with
    | some value => exact mirrors_except h.move
    | none => exact Mirrors.throw _

/-- The cursor reads an initial value as the parser does, and blames the equal sign if it is missing
at the end of the source. -/
theorem mirrors_initialValue (hlast : last.kind = .symbol .equal)
    (h : Stands tokens stop last ts pos) :
    Mirrors tokens stop pos (initialValue .plain)
      (outcome (Parse.initialValue stop last ts)) := by
  rw [initialValue, Steps.forward_plain, outcome_initialValue]
  cases ts with
  | nil => exact .step (sign_nil h) (mirrors_signedLiteral none hlast h)
  | cons t rest =>
    refine .step (sign_cons h) ?_
    dsimp only
    cases hf : factor? t with
    | some factor =>
      rcases Grammar.factor?_eq_some_iff.1 hf with ⟨hk, -⟩ | ⟨hk, -⟩
      · exact mirrors_signedLiteral (some factor) hk h.move
      · exact mirrors_signedLiteral (some factor) hk h.move
    | none => exact mirrors_signedLiteral none hlast h

theorem mirrors_initializer (h : Stands tokens stop last ts pos) :
    Mirrors tokens stop pos (initializer .plain) (match accepted (.symbol .equal) ts with
      | none => .ok ⟨none, last, ts⟩
      | some equal =>
        outcome (Parse.initialValue stop equal.last equal.rest) >>= fun v =>
          .ok ⟨some v.value, v.last, v.rest⟩) := by
  rw [initializer]
  by_cases he : front? ts = some (.symbol .equal)
  · obtain ⟨equal, others, rfl, hk⟩ := exists_cons_of_front? he
    rw [accepted_of_eq hk]
    refine .step (accept_of_eq h (by simp) hk) ?_
    exact (mirrors_initialValue hk h.move).bind fun v _ _ hv => .pure hv
  · rw [accepted_of_ne he]
    exact .step (accept_of_ne h (by simp) he) (.pure h)

theorem mirrors_declarator (type : DataType) (h : Stands tokens stop last ts pos) :
    Mirrors tokens stop pos (declarator .plain type)
      (outcome (Parse.declarator stop type last ts)) := by
  rw [declarator, outcome_declarator]
  refine (mirrors_consume _ h (by simp)).bind fun name pos' hq hname => ?_
  obtain ⟨t, rest, -, -, rfl⟩ := outcome_expect_eq_ok_iff.1 hq
  have hwhole := (mirrors_initializer hname).bind (f := fun initial => do
    return (⟨t.lexeme, initial, ⟨t.span.join (← Steps.plain.previous).span, t.line⟩⟩ : Declarator))
    (g := fun q => .ok ⟨⟨t.lexeme, q.value, ⟨t.span.join q.last.span, t.line⟩⟩, q.last, q.rest⟩)
    fun q _ _ hstands => .step (previous_eq hstands) (.pure hstands)
  dsimp only at hwhole ⊢
  cases hequal : accepted (.symbol .equal) rest with
  | none =>
    rw [hequal] at hwhole
    have hmark : (⟨t.span.join t.span, t.line⟩ : Mark) = t.mark := by simp [Span.join, Token.mark]
    simpa only [Bind.bind, Except.bind, hmark] using hwhole
  | some equal =>
    rw [hequal, bind_assoc] at hwhole
    exact hwhole

/-- A list of items is read alike if its items are. -/
theorem mirrors_list {separator : Symbol}
    {item : Token → List Token → Except Diagnostic (Reading α)}
    {list : Token → List Token → Except Diagnostic (Reading (List α))}
    {act : Nat → Cursor α} {acts : Nat → Cursor (List α)}
    (hreads : ReadsList (.symbol separator) item list)
    (hacts : ∀ budget, acts (budget + 1) = do
      let first ← act budget
      if ← accept .plain (.symbol separator) then
        return first :: (← acts budget)
      else
        return [first])
    (hlt : ∀ {last ts q}, item last ts = .ok q → q.rest.length < ts.length)
    (hitem : ∀ {last ts pos budget}, Stands tokens stop last ts pos →
      10 * ts.length + 9 ≤ budget → Mirrors tokens stop pos (act budget) (item last ts))
    {last : Token} {ts : List Token} {pos budget : Nat} (h : Stands tokens stop last ts pos)
    (hb : 10 * ts.length + 10 ≤ budget) :
    Mirrors tokens stop pos (acts budget) (list last ts) := by
  cases budget with
  | zero => omega
  | succ budget =>
    rw [hacts, hreads last ts]
    refine (hitem h (by omega)).bind fun first pos' hfirst hstands => ?_
    by_cases hs : front? first.rest = some (.symbol separator)
    · obtain ⟨t, others, hrest, ht⟩ := exists_cons_of_front? hs
      have hshorter : others.length < ts.length := by
        have := hlt hfirst
        simp only [hrest, List.length_cons] at this
        omega
      rw [hrest] at hstands ⊢
      rw [accepted_of_eq ht]
      refine .step (accept_of_eq hstands (by simp) ht) ?_
      exact (mirrors_list hreads hacts hlt hitem hstands.move (by omega)).bind
        fun q _ _ hq => .pure hq
    · rw [accepted_of_ne hs]
      exact .step (accept_of_ne hstands (by simp) hs) (.pure hstands)
termination_by budget

theorem mirrors_declarators (single : Bool) (type : DataType)
    (h : Stands tokens stop last ts pos) (hb : 10 * ts.length + 10 ≤ budget) :
    Mirrors tokens stop pos (declarators .plain single type budget)
      (if single then
        outcome (Parse.declarator stop type last ts) >>= fun d => .ok ⟨[d.value], d.last, d.rest⟩
      else
        outcome (Parse.declarators stop type last ts)) := by
  cases single with
  | true =>
    obtain ⟨less, rfl⟩ : ∃ less, budget = less + 1 := ⟨budget - 1, by omega⟩
    rw [declarators]
    exact (mirrors_declarator type h).bind fun d _ _ hd => .pure hd
  | false =>
    have hread := declarators.eq_2 .plain false type
    simp only [Bool.false_eq_true, if_false] at hread
    exact mirrors_list (readsList_declarators stop type) hread rest_length_lt
      (fun h _ => mirrors_declarator type h) h hb

/-- The cursor reads a declaration as the parser does. -/
theorem mirrors_declaration (single : Bool) (hlast : last.kind = .keyword .mugna)
    (h : Stands tokens stop last ts pos) (hb : 10 * ts.length + 10 ≤ budget) :
    Mirrors tokens stop pos (declaration .plain single budget)
      (outcome (Parse.declaration single stop last ts)) := by
  rw [declaration, Steps.forward_plain, outcome_declaration]
  refine .step (previous_eq h) ?_
  cases ts with
  | nil =>
    obtain ⟨pos', hadvance⟩ := advance_nil h
    have htaken : DataType.ofKind? (taken stop last []).kind = none := by
      rw [taken]
      rcases h.kind_stop with hs | hs <;> simp [hs, hlast, DataType.ofKind?]
    refine .step hadvance ?_
    simp only [htaken]
    exact Mirrors.throw _
  | cons t rest =>
    rw [List.length_cons] at hb
    refine .step (advance_cons h) ?_
    cases htype : DataType.ofKind? t.kind with
    | none =>
      simp only [htype]
      exact Mirrors.throw _
    | some type =>
      simp only [htype]
      refine (mirrors_declarators single type h.move (by omega)).bind fun ds _ _ hds => ?_
      exact .step (previous_eq hds) (.pure hds)

theorem atNameBefore_eq {s : Symbol} (h : Stands tokens stop last ts pos) :
    atNameBefore .plain s tokens pos = some (.ok (decide (front? ts = some .identifier) &&
      (tokens[pos + 1]?).any (·.isSymbol s), pos)) := by
  rw [atNameBefore, bind_of_ok (check_eq h (by simp))]
  cases decide (front? ts = some .identifier) <;> rfl

theorem atNameBefore_of_eq {s : Symbol} {u : Token}
    (h : Stands tokens stop last (t :: u :: rest) pos) (ht : t.kind = .identifier)
    (hu : u.kind = .symbol s) : atNameBefore .plain s tokens pos = some (.ok (true, pos)) := by
  rw [atNameBefore_eq h, (h.pair_iff s).2 ⟨t, u :: rest, rfl, ht, congrArg some hu⟩]

theorem atNameBefore_of_ne {s : Symbol} (h : Stands tokens stop last ts pos)
    (hts : ¬∃ t rest, ts = t :: rest ∧ t.kind = .identifier ∧ front? rest = some (.symbol s)) :
    atNameBefore .plain s tokens pos = some (.ok (false, pos)) := by
  rw [atNameBefore_eq h, Bool.eq_false_iff.2 fun hpair => hts ((h.pair_iff s).1 hpair)]

/-- The cursor looks two tokens ahead for a further target, as the parser does. -/
theorem mirrors_furtherTargets {last : Token} {ts : List Token} {pos budget : Nat}
    (h : Stands tokens stop last ts pos) (hb : ts.length + 1 ≤ budget) :
    Mirrors tokens stop pos (furtherTargets .plain budget)
      (.ok (Parse.furtherTargets last ts).reading) := by
  cases budget with
  | zero => omega
  | succ budget =>
    rw [furtherTargets]
    by_cases hpair : ∃ t rest, ts = t :: rest ∧ t.kind = .identifier ∧
        front? rest = some (.symbol .equal)
    · obtain ⟨t, us, rfl, ht, hf⟩ := hpair
      obtain ⟨equal, rest, rfl, he⟩ := exists_cons_of_front? hf
      rw [List.length_cons, List.length_cons] at hb
      rw [furtherTargets_cons rest last ht he]
      refine .step (atNameBefore_of_eq h ht he) ?_
      refine .step (advance_cons h) (.step (advance_cons h.move) ?_)
      exact (mirrors_furtherTargets h.move.move (by omega)).bind
        (g := fun more => .ok ⟨t.lexeme :: more.value, more.last, more.rest⟩) fun _ _ _ hmore =>
          .pure hmore
    · rw [furtherTargets_of_ne (front?_ne_of_not_exists hpair)]
      exact .step (atNameBefore_of_ne h hpair) (.pure h)
termination_by budget

/-- The cursor reads an assignment as the parser does. -/
theorem mirrors_assignment (h : Stands tokens stop last ts pos)
    (hb : 10 * ts.length + 10 ≤ budget) :
    Mirrors tokens stop pos (assignment .plain budget)
      (outcome (Parse.assignment stop last ts)) := by
  rw [assignment, Steps.forward_plain, outcome_assignment_bind]
  refine (mirrors_consume _ h (by simp)).bind fun first _ hfirst hstands => ?_
  refine (mirrors_consume _ hstands (by simp)).bind fun equal _ hequal hrest => ?_
  have := rest_length_lt hfirst
  have := rest_length_lt hequal
  refine (mirrors_furtherTargets hrest (by omega)).bind fun more _ hm hmore => ?_
  have hle : more.rest.length < equal.rest.length + 1 := by
    rw [← Except.ok.inj hm]
    exact (Parse.furtherTargets equal.last equal.rest).shorter
  exact (mirrors_expression hmore (by omega)).bind fun value _ _ hvalue => .pure hvalue

theorem mirrors_output (h : Stands tokens stop last ts pos)
    (hb : 10 * ts.length + 10 ≤ budget) :
    Mirrors tokens stop pos (output .plain budget) (outcome (Parse.output stop last ts)) := by
  rw [output, outcome_output]
  refine .step (previous_eq h) ?_
  refine (mirrors_consume _ h (by simp)).bind fun colon _ hcolon hstands => ?_
  have := rest_length_lt hcolon
  refine (mirrors_list (readsList_outputValues stop) (outputValues.eq_2 .plain) rest_length_lt
    mirrors_expression hstands (by omega)).bind fun values _ _ hrest => ?_
  exact .step (previous_eq hrest) (.pure hrest)

theorem mirrors_input (h : Stands tokens stop last ts pos) (hb : 10 * ts.length + 10 ≤ budget) :
    Mirrors tokens stop pos (input .plain budget) (outcome (Parse.input stop last ts)) := by
  rw [input, outcome_input]
  refine .step (previous_eq h) ?_
  refine (mirrors_consume _ h (by simp)).bind fun colon _ hcolon hstands => ?_
  have hread : ∀ budget, inputTargets .plain (budget + 1) = do
      let first ← (do return (← consume .plain .identifier .inputName).lexeme)
      if ← accept .plain (.symbol .comma) then
        return first :: (← inputTargets .plain budget)
      else
        return [first] := by
    intro budget
    rw [bind_assoc]
    exact inputTargets.eq_2 .plain budget
  have := rest_length_lt hcolon
  refine (mirrors_list (readsList_inputTargets stop) hread rest_length_lt_of_inputTarget
    (fun h _ => (mirrors_consume _ h (by simp)).bind fun _ _ _ hname => .pure hname) hstands
    (by omega)).bind fun names _ _ hrest => ?_
  exact .step (previous_eq hrest) (.pure hrest)

theorem mirrors_loopIncrement (h : Stands tokens stop last ts pos)
    (hb : 10 * ts.length + 10 ≤ budget) : Mirrors tokens stop pos (loopIncrement .plain budget)
      (outcome (Parse.loopIncrement stop last ts)) := by
  rw [loopIncrement]
  by_cases hpair : ∃ t rest, ts = t :: rest ∧ t.kind = .identifier ∧
      front? rest = some (.symbol .increment)
  · obtain ⟨t, us, rfl, ht, hf⟩ := hpair
    obtain ⟨operator, rest, rfl, ho⟩ := exists_cons_of_front? hf
    rw [outcome_loopIncrement_of_increment stop last ht ho]
    refine .step (atNameBefore_of_eq h ht ho) ?_
    exact .step (advance_cons h) (.step (advance_cons h.move) (.pure h.move.move))
  · rw [outcome_loopIncrement_of_ne (front?_ne_of_not_exists hpair)]
    exact .step (atNameBefore_of_ne h hpair) (mirrors_assignment h hb)

theorem mirrors_loopInitializer (h : Stands tokens stop last ts pos)
    (hb : 10 * ts.length + 10 ≤ budget) : Mirrors tokens stop pos (loopInitializer .plain budget)
      (outcome (Parse.loopInitializer stop last ts)) := by
  rw [loopInitializer, outcome_loopInitializer]
  by_cases hm : front? ts = some (.keyword .mugna)
  · obtain ⟨t, rest, rfl, ht⟩ := exists_cons_of_front? hm
    rw [List.length_cons] at hb
    rw [accepted_of_eq ht]
    refine .step (accept_of_eq h (by simp) ht) ?_
    dsimp only
    exact mirrors_declaration true ht h.move (by omega)
  rw [accepted_of_ne hm]
  refine .step (accept_of_ne h (by simp) hm) (.step (check_eq h (by simp)) ?_)
  by_cases hi : front? ts = some .identifier
  · simp only [hi, decide_true, if_true]
    exact (mirrors_assignment h hb).bind fun a _ _ ha => .pure ha
  · simp only [hi, decide_false, if_false]
    exact .step (peek_eq h) (Mirrors.throw _)

/-- The cursor reads the clauses of a loop as the parser does. -/
theorem mirrors_loopHeader (h : Stands tokens stop last ts pos)
    (hb : 10 * ts.length + 10 ≤ budget) :
    Mirrors tokens stop pos (loopHeader .plain budget)
      (outcome (Parse.loopHeader stop last ts)) := by
  rw [loopHeader, outcome_loopHeader]
  refine (mirrors_consume _ h (by simp)).bind fun opening _ ho hopening => ?_
  have := rest_length_lt ho
  refine (mirrors_loopInitializer hopening (by omega)).bind fun initializer _ hi hinitializer => ?_
  have := rest_length_lt hi
  refine (mirrors_consume _ hinitializer (by simp)).bind fun comma _ hc hcomma => ?_
  have := rest_length_lt hc
  refine (mirrors_expression hcomma (by omega)).bind fun condition _ hcond hcondition => ?_
  have := rest_length_lt hcond
  refine (mirrors_consume _ hcondition (by simp)).bind fun comma' _ hc' hcomma' => ?_
  have := rest_length_lt hc'
  refine (mirrors_loopIncrement hcomma' (by omega)).bind fun increment _ _ hincrement => ?_
  exact (mirrors_consume _ hincrement (by simp)).bind fun close _ _ hclose => .pure hclose

end BisayaPlus.Cursor
