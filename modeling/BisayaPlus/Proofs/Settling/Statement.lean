import BisayaPlus.Proofs.Settling.SimpleStatement

/-!
The readers of statements, blocks and branches settle.
-/

namespace BisayaPlus

open Token Grammar

theorem Alike.atEnd_iff {stop stop' : Token} {n : Nat} {ts ts' : List Token}
    (h : Alike stop stop' (n + 1) ts ts') : Parse.AtEnd ts ↔ Parse.AtEnd ts' := by
  have hfront := h.front?_eq
  cases ts with
  | nil =>
    obtain ⟨rfl, -⟩ := h.eq_nil
    exact Iff.rfl
  | cons t ts =>
    obtain ⟨us, rfl, -⟩ := h.exists_cons
    simp [Parse.AtEnd]

namespace Parse

variable {stop last t : Token} {ts rest : List Token}

/-- A block does not count for what it stands behind. -/
theorem apart_block : (Phrase.of BlockAt).Apart := by
  rintro ts rest ⟨b, hw, ho, hs, hc⟩
  exact .inr (follows_nil_of_keyword hw _)

theorem apart_branches : (Phrase.of BranchesAt).Apart := by
  rintro ts rest ⟨bs, _ | ⟨ht, hb, hbs⟩⟩
  · exact .inl rfl
  · exact .inr (follows_nil_of_keyword ht _)

theorem apart_otherwise : (Phrase.of OtherwiseAt).Apart := by
  rintro ts rest ⟨b, _ | ⟨ht, hb⟩⟩
  · exact .inl rfl
  · exact .inr (follows_nil_of_keyword ht _)

/-- Statements begin with a keyword, or with a name that an equal sign follows. -/
theorem apart_statements : (Phrase.of StatementsAt).Apart := by
  rintro ts rest ⟨ss, h⟩
  cases h with
  | nil => exact .inl rfl
  | cons hs hss =>
    right
    cases hs with
    | assignment ha =>
      obtain ⟨t, equal, us, rfl, ht, he⟩ := ha.exists_cons
      constructor
      · intro ho
        cases ho with
        | name hk hr => exact absurd (by simp [he]) hr
        | literal hk | symbol hk => simp [ht] at hk
        | symbolText hk hs => simp [ht] at hk
      · intro hf
        simp [ht] at hf
    | declaration ht | output ht | input ht | conditional ht | loop ht =>
      exact follows_nil_of_keyword ht _

theorem begins_statements : (Phrase.of StatementsAt).Begins [] :=
  ⟨[], by simp, fun _ _ => ⟨[], .nil⟩⟩

def blockRest : Phrase :=
  (Phrase.of StatementsAt).seq (.token (.symbol .rightBrace))

theorem begins_blockRest : blockRest.Begins [] :=
  begins_statements.seq_left (.inr (Phrase.apart_symbol (by simp))) (Phrase.begins_token rfl)

theorem begins_blockStart : ((Phrase.token (.symbol .leftBrace)).seq blockRest).Begins [] :=
  Phrase.begins_token_seq rfl begins_blockRest

theorem of_blockAt (ts rest : List Token) (h : (Phrase.token (.keyword .pundok)).seq
    ((Phrase.token (.symbol .leftBrace)).seq blockRest) ts rest) : Phrase.of BlockAt ts rest := by
  obtain ⟨us, ⟨word, hw, rfl⟩, vs, ⟨opening, ho, rfl⟩, ws, ⟨ss, hs⟩, closing, hc, rfl⟩ := h
  exact ⟨.mk ss ⟨0, 0⟩, .mk hw ho hs hc⟩

theorem begins_block : (Phrase.of BlockAt).Begins [] :=
  (Phrase.begins_token_seq rfl begins_blockStart).mono of_blockAt

def condition : Phrase :=
  fun ts rest => front? ts = some (.symbol .leftParen) ∧ Phrase.of (ExprAt 0) ts rest

theorem begins_condition : condition.Begins [] := by
  have hparentheses : ((Phrase.token (.symbol .leftParen)).seq parenthesesRest).Begins [] :=
    Phrase.begins_token_seq rfl begins_parenthesesRest
  refine hparentheses.mono fun ts rest h => ?_
  obtain ⟨e, he⟩ := of_parentheses ts rest h
  obtain ⟨us, ⟨opening, ho, rfl⟩, -⟩ := h
  exact ⟨congrArg some ho, e, he.loosen (Nat.le_refl 6) (Nat.zero_le 6)⟩

theorem settles_condition (stop : Token) (hf : front? ts = some (.symbol .leftParen)) :
    Settles condition (fun stop ts => outcome (expression stop ts)) stop ts := by
  obtain ⟨hok, herror⟩ := settles_expression stop ts
  constructor
  · intro q hq
    obtain ⟨c, hts, hP, hstable⟩ := hok q hq
    refine ⟨c, hts, fun other hother => ⟨?_, hP other hother⟩, hstable⟩
    cases c with
    | nil =>
      have hlt := rest_length_lt hq
      simp [hts] at hlt
    | cons u us => rwa [hts] at hf
  · intro d hd
    obtain ⟨before, t, after, hts, hline, ⟨us, hus, hP⟩, hstable⟩ := herror d hd
    refine ⟨before, t, after, hts, hline, ?_, hstable⟩
    cases before with
    | nil => exact begins_condition
    | cons b bs =>
      obtain ⟨u, others, rfl, hu⟩ := exists_cons_of_front? hf
      obtain ⟨rfl, -⟩ := List.cons.inj hts
      exact ⟨us, hus, fun other hother => ⟨congrArg some hu, hP other hother⟩⟩

theorem of_branchAt (ts rest : List Token) (h : condition.seq (.of BlockAt) ts rest) :
    Phrase.of BranchAt ts rest := by
  obtain ⟨mid, ⟨hf, e, he⟩, b, hb⟩ := h
  exact ⟨.mk e b, .mk hf he hb⟩

theorem begins_branch : (Phrase.of BranchAt).Begins [] :=
  (begins_condition.seq_left (.inr apart_block) begins_block).mono of_branchAt

theorem begins_branches : (Phrase.of BranchesAt).Begins [] :=
  ⟨[], by simp, fun _ _ => ⟨[], .nil⟩⟩

theorem begins_otherwise : (Phrase.of OtherwiseAt).Begins [] :=
  ⟨[], by simp, fun _ _ => ⟨none, .none⟩⟩

theorem of_assignment (ts rest : List Token) (h : Phrase.of AssignmentAt ts rest) :
    Phrase.of StatementAt ts rest := by
  obtain ⟨a, ha⟩ := h
  exact ⟨.assignment a, .assignment ha⟩

theorem begins_statement : (Phrase.of StatementAt).Begins [] :=
  (settles_assignment (Phrase.blank .sourceEnd) (Phrase.blank .sourceEnd) []).begins.mono
    of_assignment

def furtherClauses : Phrase :=
  (Phrase.of BranchesAt).seq (.of OtherwiseAt)

theorem apart_furtherClauses : furtherClauses.Apart :=
  apart_branches.seq apart_otherwise

theorem begins_furtherClauses : furtherClauses.Begins [] :=
  begins_branches.seq_left (.inr apart_otherwise) begins_otherwise

theorem of_conditional (ts rest : List Token)
    (h : (Phrase.token (.keyword .kung)).seq ((Phrase.of BranchAt).seq furtherClauses) ts rest) :
    Phrase.of StatementAt ts rest := by
  obtain ⟨us, ⟨t, ht, rfl⟩, vs, ⟨b, hb⟩, ws, ⟨bs, hbs⟩, otherwise, ho⟩ := h
  exact ⟨.conditional b bs otherwise ⟨0, 0⟩, .conditional ht hb hbs ho⟩

def loopRest : Phrase :=
  (Phrase.token (.keyword .sa)).seq ((Phrase.of LoopHeaderAt).seq (.of BlockAt))

theorem of_loop (ts rest : List Token)
    (h : (Phrase.token (.keyword .alang)).seq loopRest ts rest) :
    Phrase.of StatementAt ts rest := by
  obtain ⟨us, ⟨t, ht, rfl⟩, vs, ⟨word, hw, rfl⟩, ws, ⟨header, hh⟩, body, hb⟩ := h
  exact ⟨.loop header.initializer header.condition header.increment body ⟨0, 0⟩,
    .loop ht hw hh hb⟩

theorem of_output (ts rest : List Token) (h : (Phrase.token (.keyword .ipakita)).seq
    ((Phrase.token (.symbol .colon)).seq (.of (Separated (ExprAt 0) (.symbol .ampersand)))) ts
      rest) : Phrase.of StatementAt ts rest := by
  obtain ⟨us, ⟨t, ht, rfl⟩, vs, ⟨colon, hc, rfl⟩, es, he⟩ := h
  exact ⟨.output es ⟨0, 0⟩, .output ht hc he⟩

theorem of_input (ts rest : List Token) (h : (Phrase.token (.keyword .dawat)).seq
    ((Phrase.token (.symbol .colon)).seq (.of (Separated NameAt (.symbol .comma)))) ts rest) :
    Phrase.of StatementAt ts rest := by
  obtain ⟨us, ⟨t, ht, rfl⟩, vs, ⟨colon, hc, rfl⟩, names, hn⟩ := h
  exact ⟨.input names ⟨⟨0, 0⟩, 0⟩, .input ht hc hn⟩

theorem of_otherwise (ts rest : List Token)
    (h : ((Phrase.token (.keyword .kungWala)).seq (.of BlockAt)).optional ts rest) :
    Phrase.of OtherwiseAt ts rest := by
  rcases h with rfl | ⟨us, ⟨t, ht, rfl⟩, b, hb⟩
  · exact ⟨none, .none⟩
  · exact ⟨some b, .some ht hb⟩

theorem of_branches (ts rest : List Token) (h : ((Phrase.token (.keyword .kungDili)).seq
    ((Phrase.of BranchAt).seq (.of BranchesAt))).optional ts rest) :
    Phrase.of BranchesAt ts rest := by
  rcases h with rfl | ⟨us, ⟨t, ht, rfl⟩, vs, ⟨b, hb⟩, bs, hbs⟩
  · exact ⟨[], .nil⟩
  · exact ⟨b :: bs, .cons ht hb hbs⟩

theorem of_statements (ts rest : List Token)
    (h : (Phrase.of StatementAt).seq (.of StatementsAt) ts rest) :
    Phrase.of StatementsAt ts rest := by
  obtain ⟨us, ⟨s, hs⟩, ss, hss⟩ := h
  exact ⟨s :: ss, .cons hs hss⟩

mutual

/-- A statement is settled by its own tokens and two further ones. -/
theorem settles_statement (stop last : Token) (ts : List Token) :
    Settles (.of StatementAt) (fun stop ts => outcome (statement stop last ts)) stop ts := by
  cases ts with
  | nil =>
    refine .fail begins_statement fun stop' ts' halike => ?_
    obtain ⟨rfl, -⟩ := halike.eq_nil
    exact ⟨_, outcome_statement_nil stop' last, rfl⟩
  | cons t rest =>
    have hread : ∀ stop' rest', outcome (statement stop' last (t :: rest')) = _ :=
      fun stop' rest' => outcome_statement_cons stop' last t rest'
    have hfail : ∀ fault, (∀ stop' rest', outcome (statement stop' last (t :: rest')) =
        .error (blame fault t)) →
        Settles (.of StatementAt) (fun stop ts => outcome (statement stop last ts)) stop
          (t :: rest) := by
      intro fault hfault
      refine .fail begins_statement fun stop' ts' halike => ?_
      obtain ⟨us, rfl, -⟩ := halike.exists_cons
      exact ⟨_, hfault stop' us, rfl⟩
    unfold statementAt at hread
    split at hread
    · exact settles_declaration ‹_› hread (fun ht hw hds =>
        ⟨.declaration _ _ ⟨0, 0⟩, .declaration ht hw hds⟩) stop rest
    · refine .congr (.map (g := fun a => .assignment a.value)
        ((settles_assignment stop last (t :: rest)).mono of_assignment) fun _ _ _ _ => rfl)
        fun stop' ts' halike => ?_
      obtain ⟨us, rfl, -⟩ := halike.exists_cons
      exact hread stop' us
    · refine (Settles.lead ‹_› ?_).mono of_output
      simp only [hread]
      exact settles_output stop t rest
    · refine (Settles.lead ‹_› ?_).mono of_input
      simp only [hread]
      exact settles_input stop t rest
    · refine (Settles.lead ‹_› ?_).mono of_conditional
      simp only [hread]
      exact settles_conditional stop t rest
    · refine (Settles.lead ‹_› ?_).mono of_loop
      simp only [hread]
      exact settles_loop stop t rest
    · exact hfail _ hread
    · exact hfail _ hread
    · exact hfail _ hread
termination_by 4 * ts.length + 2
decreasing_by
  all_goals
    subst_vars
    simp only [List.length_cons]
    omega

theorem settles_conditional (stop start : Token) (ts : List Token) :
    Settles ((Phrase.of BranchAt).seq furtherClauses)
      (fun stop ts => outcome (conditional stop start ts)) stop ts := by
  simp only [outcome_conditional]
  refine (settles_branch stop .kung ts).seq (.inr apart_furtherClauses) begins_furtherClauses
    fun first hfirst => ?_
  dsimp only
  refine (settles_branches stop first.last first.rest).seq (.inr apart_otherwise) begins_otherwise
    fun others hothers => ?_
  dsimp only
  refine (Settles.optional (.keyword .kungWala)
    (.conditional first.value others.value none (start.span.join others.last.span)) others.last
    (fun stop' ts' hne => ?_) fun word us hw hrest => ?_).mono of_otherwise
  · simp only [accepted_of_ne hne]
  · rw [hrest]
    refine .lead hw ?_
    simp only [accepted_of_eq hw]
    exact .map (settles_block stop .kungWala word us) fun _ _ _ _ => rfl
termination_by 4 * ts.length + 2
decreasing_by
  · omega
  · have := rest_length_lt hfirst
    omega
  · have := rest_length_lt hfirst
    have := rest_length_lt hothers
    simp only [hrest, List.length_cons] at this
    omega

theorem settles_branches (stop last : Token) (ts : List Token) :
    Settles (.of BranchesAt) (fun stop ts => outcome (branches stop last ts)) stop ts := by
  have hread : ∀ stop ts, outcome (branches stop last ts) = _ :=
    fun stop ts => outcome_branches stop last ts
  simp only [hread]
  refine (Settles.optional (.keyword .kungDili) [] last (fun stop' ts' hne => ?_)
    fun word us hw hrest => ?_).mono of_branches
  · simp only [accepted_of_ne hne]
  · rw [hrest]
    refine .lead hw ?_
    simp only [accepted_of_eq hw]
    refine (settles_branch stop .kungDili us).seq (.inr apart_branches) begins_branches
      fun first hfirst => ?_
    dsimp only
    exact .map (settles_branches stop first.last first.rest) fun _ _ _ _ => rfl
termination_by 4 * ts.length
decreasing_by
  · subst_vars
    simp only [List.length_cons]
    omega
  · have := rest_length_lt hfirst
    subst_vars
    simp only [List.length_cons] at this ⊢
    omega

theorem settles_branch (stop : Token) (owner : Owner) (ts : List Token) :
    Settles (.of BranchAt) (fun stop ts => outcome (branch stop owner ts)) stop ts := by
  by_cases hf : front? ts = some (.symbol .leftParen)
  · have hread : Settles (condition.seq (.of BlockAt)) (fun stop ts =>
        outcome (expression stop ts) >>= fun condition =>
          outcome (block stop owner condition.last condition.rest) >>= fun body =>
            .ok ⟨Branch.mk condition.value body.value, body.last, body.rest⟩) stop ts := by
      refine (settles_condition stop hf).seq (.inr apart_block) begins_block fun q hq => ?_
      dsimp only
      exact .map (settles_block stop owner q.last q.rest) fun _ _ _ _ => rfl
    refine (hread.mono of_branchAt).congr fun stop' ts' halike => ?_
    rw [halike.front?_eq] at hf
    rw [outcome_branch]
    exact if_pos hf
  · refine .fail begins_branch fun stop' ts' halike => ?_
    rw [halike.front?_eq] at hf
    refine ⟨blame (.bareCondition owner) (next stop' ts'), ?_, rfl⟩
    rw [outcome_branch]
    exact if_neg hf
termination_by 4 * ts.length + 1
decreasing_by
  have := rest_length_lt hq
  omega

theorem settles_loop (stop start : Token) (ts : List Token) :
    Settles loopRest (fun stop ts => outcome (loop stop start ts)) stop ts := by
  have hheader : ((Phrase.of LoopHeaderAt).seq (.of BlockAt)).Begins [] :=
    (settles_loopHeader stop start []).begins.seq_left (.inr apart_block) begins_block
  simp only [outcome_loop]
  refine .expect_seq rfl hheader fun word us hrest => ?_
  dsimp only
  refine (settles_loopHeader stop word us).seq (.inr apart_block) begins_block
    fun header hh => ?_
  dsimp only
  exact .map (settles_block stop .alangSa header.last header.rest) fun _ _ _ _ => rfl
termination_by 4 * ts.length + 2
decreasing_by
  have := rest_length_lt hh
  subst_vars
  simp only [List.length_cons] at this ⊢
  omega

theorem settles_block (stop : Token) (owner : Owner) (last : Token) (ts : List Token) :
    Settles (.of BlockAt) (fun stop ts => outcome (block stop owner last ts)) stop ts := by
  simp only [outcome_block]
  refine (Settles.expect_seq rfl begins_blockStart fun word us hus => ?_).mono of_blockAt
  dsimp only
  refine .expect_seq rfl begins_blockRest fun opening vs hvs => ?_
  dsimp only
  refine (settles_statements stop opening vs).seq (.inr (Phrase.apart_symbol (by simp)))
    (Phrase.begins_token rfl) fun body _ => ?_
  dsimp only
  exact .map (.expect stop body.last _ _ body.rest rfl) fun _ _ _ _ => rfl
termination_by 4 * ts.length
decreasing_by
  subst_vars
  simp only [List.length_cons]
  omega

/-- Statements are settled by their own tokens and two further ones. -/
theorem settles_statements (stop last : Token) (ts : List Token) :
    Settles (.of StatementsAt) (fun stop ts => outcome (statements stop last ts)) stop ts := by
  by_cases hend : AtEnd ts
  · refine .stay [] last (fun _ _ => ⟨[], .nil⟩) fun stop' ts' halike => ?_
    exact outcome_statements_of_atEnd (halike.atEnd_iff.1 hend)
  · have hread : Settles ((Phrase.of StatementAt).seq (.of StatementsAt)) (fun stop ts =>
        outcome (statement stop last ts) >>= fun first =>
          outcome (statements stop first.last first.rest) >>= fun others =>
            .ok ⟨first.value :: others.value, others.last, others.rest⟩) stop ts := by
      refine (settles_statement stop last ts).seq (.inr apart_statements) begins_statements
        fun first hfirst => ?_
      dsimp only
      exact .map (settles_statements stop first.last first.rest) fun _ _ _ _ => rfl
    refine (hread.mono of_statements).congr fun stop' ts' halike => ?_
    exact outcome_statements_of_not_atEnd fun hend' => hend (halike.atEnd_iff.2 hend')
termination_by 4 * ts.length + 3
decreasing_by
  · omega
  · have := rest_length_lt hfirst
    omega

end

end Parse

end BisayaPlus
