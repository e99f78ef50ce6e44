import BisayaPlus.Proofs.Foresight

/-!
Programs that break off. If the end of the source comes before a program is complete, that end is
blamed, or the token in front of it where the type of a declaration or an initial value is missing.
-/

namespace BisayaPlus

open Token Parse

namespace Parse

variable {stop last t : Token} {before ts rest : List Token}

/-- At the end of the source the token in front of the missing literal is blamed. -/
theorem foretells_signedLiteral (hstop : stop.kind = .sourceEnd)
    (hlast : last.kind = .symbol .equal ∨
      last.kind = .symbol .minus ∨ last.kind = .symbol .plus)
    (factor : Option Number) (ts : List Token) :
    Foretells (before ++ [last])
      (fun stop ts => outcome (signedLiteral stop last factor ts)) stop ts := by
  simp only [outcome_signedLiteral]
  cases ts with
  | nil =>
    refine .late (d := notLiteral last) ?_
      (.inr ⟨before, last, List.append_nil _, .initialValue hlast⟩)
    simp only [taken, hstop, if_true]
  | cons t rest =>
    cases hl : signedLiteral? factor t with
    | some value =>
      refine .single (x := value) fun _ _ => ?_
      simp only [hl]
    | none =>
      refine .fails (List.cons_ne_nil t rest) fun _ _ => ⟨notLiteral t, ?_⟩
      simp only [List.cons_append, hl]

/-- If the source ends behind an equal sign, this sign is blamed for the value that is missing. -/
theorem foretells_initialValue (hstop : stop.kind = .sourceEnd) (hlast : last.kind = .symbol .equal)
    (ts : List Token) :
    Foretells (before ++ [last]) (fun stop ts => outcome (initialValue stop last ts)) stop ts := by
  have hunsigned : ∀ ts, Foretells (before ++ [last])
      (fun stop ts => outcome (signedLiteral stop last none ts)) stop ts :=
    foretells_signedLiteral hstop (.inl hlast) none
  simp only [outcome_initialValue]
  cases ts with
  | nil => exact (hunsigned []).congr rfl fun hne => absurd rfl hne
  | cons t rest =>
    cases hf : factor? t with
    | some factor =>
      have hsign := (Grammar.factor?_eq_some_iff.1 hf).imp And.left And.left
      refine .cons (foretells_signedLiteral hstop (.inr hsign) (some factor) rest) fun _ _ => ?_
      simp only [hf]
    | none =>
      refine (hunsigned (t :: rest)).congr (by simp only [hf]) fun _ _ _ => ?_
      simp only [List.cons_append, hf]

theorem foretells_declarator (hstop : stop.kind = .sourceEnd) (type : DataType) (last : Token)
    (ts : List Token) :
    Foretells [] (fun stop ts => outcome (declarator stop type last ts)) stop ts := by
  simp only [outcome_declarator]
  refine .expect_seq fun t rest _ => ?_
  refine .optional (.symbol .equal) ⟨t.lexeme, none, t.mark⟩ t (fun stop' ts' hne => ?_)
    fun equal others he hrest => ?_
  · simp only [accepted_of_ne hne]
  · subst hrest
    refine .lead ?_
    simp only [accepted_of_eq he]
    exact .map (foretells_initialValue hstop he others) fun _ _ _ _ => rfl

/-- A list of items with separators between them is foretold if its items are. -/
theorem foretells_list {α : Type} {separator : Symbol}
    {item : Token → Token → List Token → Except Diagnostic (Reading α)}
    {list : Token → Token → List Token → Except Diagnostic (Reading (List α))}
    (hreads : ∀ stop, ReadsList (.symbol separator) (item stop) (list stop))
    (hlt : ∀ {stop last ts q}, item stop last ts = .ok q → q.rest.length < ts.length)
    (hitem : ∀ last ts, Foretells [] (fun stop ts => item stop last ts) stop ts)
    (last : Token) (ts : List Token) :
    Foretells [] (fun stop ts => list stop last ts) stop ts := by
  have hread : ∀ stop ts, list stop last ts = _ := fun stop ts => hreads stop last ts
  simp only [hread]
  refine (hitem last ts).seq fun first hfirst => ?_
  refine .optional (.symbol separator) [first.value] first.last (fun stop' ts' hne => ?_)
    fun t others ht hrest => ?_
  · simp only [accepted_of_ne hne]
  · have hshorter : others.length < ts.length := by
      have := hlt hfirst
      simp only [hrest, List.length_cons] at this
      omega
    rw [hrest]
    refine .lead ?_
    simp only [accepted_of_eq ht]
    exact .map (foretells_list hreads hlt hitem t others).of_nil fun _ _ _ _ => rfl
termination_by ts.length

theorem foretells_declared (hstop : stop.kind = .sourceEnd) (single : Bool) (type : DataType)
    (last : Token) (ts : List Token) :
    Foretells [] (fun stop ts =>
      if single then
        outcome (declarator stop type last ts) >>= fun d => .ok ⟨[d.value], d.last, d.rest⟩
      else
        outcome (declarators stop type last ts)) stop ts := by
  cases single with
  | true => exact .map (foretells_declarator hstop type last ts) fun _ _ _ _ => rfl
  | false =>
    exact foretells_list (fun stop => readsList_declarators stop type) rest_length_lt
      (foretells_declarator hstop type) last ts

/-- A declaration behind its keyword. -/
theorem foretells_declaration (before : List Token) (hstop : stop.kind = .sourceEnd) (single : Bool)
    (ht : t.kind = .keyword .mugna) (ts : List Token) :
    Foretells (before ++ [t]) (fun stop ts => outcome (declaration single stop t ts)) stop ts := by
  simp only [outcome_declaration]
  cases ts with
  | nil =>
    refine .late (d := blame (.notDataType t.lexeme) t) ?_
      (.inr ⟨before, t, List.append_nil _, .dataType ht⟩)
    simp only [taken, hstop, if_true]
    rfl
  | cons word us =>
    cases htype : DataType.ofKind? word.kind with
    | none =>
      refine .fails (List.cons_ne_nil word us) fun _ _ => ⟨declaration.noType word, ?_⟩
      simp only [List.cons_append, htype]
    | some type =>
      refine .lead ?_
      simp only [htype]
      exact .map (foretells_declared hstop single type word us).of_nil fun _ _ _ _ => rfl

/-- If some tokens do not begin with two of given kinds, then no more tokens behind them make them
do so, unless they are only the first of the two. -/
theorem front?_ne_append {kind kind' : Token.Kind} (hts : ts ≠ [])
    (hpair : ¬∃ t rest, ts = t :: rest ∧ t.kind = kind ∧ front? rest = some kind')
    (hone : ¬∃ x, ts = [x] ∧ x.kind = kind) (us : List Token) :
    ∀ t rest, ts ++ us = t :: rest → t.kind = kind → front? rest ≠ some kind' := by
  intro t rest heq ht hf
  match ts with
  | [x] =>
    obtain ⟨rfl, -⟩ := List.cons.inj heq
    exact hone ⟨_, rfl, ht⟩
  | x :: y :: others =>
    obtain ⟨rfl, rfl⟩ := List.cons.inj heq
    exact hpair ⟨_, _, rfl, ht, hf⟩

/-- Further targets and the value behind them. A name alone is the value, though it would be a
target with an equal sign behind it. -/
theorem foretells_targets {α : Type} (g : List String → Expr → α) (last stop : Token)
    (ts : List Token) :
    Foretells [] (fun stop ts => .ok (furtherTargets last ts).reading >>= fun more =>
      outcome (expression stop more.rest) >>= fun value =>
        .ok ⟨g more.value value.value, value.last, value.rest⟩) stop ts := by
  by_cases hequal : ∃ t rest, ts = t :: rest ∧ t.kind = .identifier ∧
      front? rest = some (.symbol .equal)
  · obtain ⟨t, us, rfl, ht, hf⟩ := hequal
    obtain ⟨equal, rest, rfl, he⟩ := exists_cons_of_front? hf
    refine .lead (.lead ?_)
    simp only [furtherTargets_cons _ last ht he]
    exact (foretells_targets (fun names => g (t.lexeme :: names)) equal stop rest).of_nil
  by_cases hone : ∃ x, ts = [x] ∧ x.kind = .identifier
  · obtain ⟨x, rfl, hx⟩ := hone
    refine .finish (g [] (.name x.lexeme x.mark)) x ?_
    have hvalue := outcome_level_name hx stop BinaryOp.levels
    simp only [furtherTargets, expression, Parsed.reading, Bind.bind, Except.bind, hvalue]
  have hvalue : Foretells [] (fun stop ts => outcome (expression stop ts) >>= fun value =>
      .ok ⟨g [] value.value, value.last, value.rest⟩) stop ts :=
    .map (foretells_expression stop ts) fun _ _ _ _ => rfl
  refine hvalue.congr ?_ fun hts stop' us => ?_
  · rw [furtherTargets_of_ne (front?_ne_of_not_exists hequal)]
    rfl
  · rw [furtherTargets_of_ne (front?_ne_append hts hequal hone us)]
    rfl
termination_by ts.length
decreasing_by
  subst_vars
  simp only [List.length_cons]
  omega

/-- An assignment is read in the same way from a longer list, unless the source ended too early. -/
theorem foretells_assignment (stop last : Token) (ts : List Token) :
    Foretells [] (fun stop ts => outcome (assignment stop last ts)) stop ts := by
  simp only [outcome_assignment_bind]
  refine .expect_seq fun name us _ => ?_
  dsimp only
  refine .expect_seq fun equal vs _ => ?_
  let whole (names : List String) (value : Expr) : Assignment :=
    ⟨name.lexeme :: names, value, ⟨name.span.join value.mark.span, name.line⟩⟩
  exact foretells_targets whole equal stop vs

theorem foretells_output (stop start : Token) (ts : List Token) :
    Foretells [] (fun stop ts => outcome (output stop start ts)) stop ts := by
  simp only [outcome_output]
  refine .expect_seq fun colon rest _ => ?_
  have hlist := foretells_list readsList_outputValues rest_length_lt
    (fun _ => foretells_expression stop) stop rest
  exact .map hlist fun _ _ _ _ => rfl

theorem foretells_inputTarget (stop last : Token) (ts : List Token) :
    Foretells [] (fun stop ts => inputTarget stop last ts) stop ts := by
  unfold inputTarget
  exact .map (g := fun name => name.value.lexeme) (.expect stop last _ _ ts) fun _ _ _ _ => rfl

theorem foretells_input (stop start : Token) (ts : List Token) :
    Foretells [] (fun stop ts => outcome (input stop start ts)) stop ts := by
  simp only [outcome_input]
  refine .expect_seq fun colon rest _ => ?_
  have hlist := foretells_list readsList_inputTargets rest_length_lt_of_inputTarget
    (foretells_inputTarget stop) colon rest
  exact .map hlist fun _ _ _ _ => rfl

theorem foretells_loopIncrement (stop last : Token) (ts : List Token) :
    Foretells [] (fun stop ts => outcome (loopIncrement stop last ts)) stop ts := by
  by_cases hincrement : ∃ t rest, ts = t :: rest ∧ t.kind = .identifier ∧
      front? rest = some (.symbol .increment)
  · obtain ⟨t, us, rfl, ht, hf⟩ := hincrement
    obtain ⟨operator, rest, rfl, ho⟩ := exists_cons_of_front? hf
    refine .lead (.single (x := .ok (incrementOf t operator)) fun stop' us => ?_)
    exact outcome_loopIncrement_of_increment stop' last ht ho
  by_cases hone : ∃ x, ts = [x] ∧ x.kind = .identifier
  · obtain ⟨x, rfl, hx⟩ := hone
    refine .blames_stop (d := unmet stop x (.equalSign x.lexeme) []) ?_ (line_unmet_nil ..)
    rw [outcome_loopIncrement_of_ne (front?_ne_of_not_exists hincrement), outcome_assignment,
      outcome_expect_of_eq hx]
    rfl
  · refine (foretells_assignment stop last ts).congr ?_ fun hts stop' us => ?_
    · exact outcome_loopIncrement_of_ne (front?_ne_of_not_exists hincrement)
    · exact outcome_loopIncrement_of_ne (front?_ne_append hts hincrement hone us)

theorem foretells_loopInitializer (hstop : stop.kind = .sourceEnd) (last : Token)
    (ts : List Token) :
    Foretells [] (fun stop ts => outcome (loopInitializer stop last ts)) stop ts := by
  have hread : ∀ stop' ts', outcome (loopInitializer stop' last ts') = _ :=
    fun stop' ts' => outcome_loopInitializer stop' last ts'
  cases ts with
  | nil => exact .blames_stop (d := blame (.notInitializer stop.lexeme) stop) (hread stop []) rfl
  | cons t rest =>
    by_cases hm : t.kind = .keyword .mugna
    · refine .lead ?_
      simp only [hread, accepted_of_eq hm]
      exact foretells_declaration [] hstop true hm rest
    have hnot : ∀ us, accepted (.keyword .mugna) (t :: us) = none := fun us =>
      accepted_of_ne (by simpa using hm)
    by_cases hi : t.kind = .identifier
    · refine .congr (.map (g := fun a => .assignment a.value)
        (foretells_assignment stop last (t :: rest)) fun _ _ _ _ => rfl) ?_ fun _ stop' us => ?_
      · rw [hread, hnot]
        exact if_pos (congrArg some hi)
      · rw [hread, List.cons_append, hnot]
        exact if_pos (congrArg some hi)
    · refine .fails (List.cons_ne_nil t rest) fun stop' us =>
        ⟨blame (.notInitializer t.lexeme) t, ?_⟩
      rw [hread, List.cons_append, hnot]
      exact if_neg fun hf => hi (Option.some.inj hf)

theorem foretells_loopHeader (hstop : stop.kind = .sourceEnd) (last : Token) (ts : List Token) :
    Foretells [] (fun stop ts => outcome (loopHeader stop last ts)) stop ts := by
  simp only [outcome_loopHeader]
  refine .expect_seq fun opening us _ => ?_
  dsimp only
  refine (foretells_loopInitializer hstop opening us).seq fun init _ => ?_
  dsimp only
  refine .expect_seq fun comma vs _ => ?_
  dsimp only
  refine (foretells_expression stop vs).seq fun condition _ => ?_
  dsimp only
  refine .expect_seq fun comma' ws _ => ?_
  dsimp only
  refine (foretells_loopIncrement stop comma' ws).seq fun increment _ => ?_
  dsimp only
  exact .map (.expect stop increment.last _ _ increment.rest) fun _ _ _ _ => rfl

theorem not_atEnd_append {us : List Token} (hts : ts ≠ []) (h : ¬AtEnd ts) : ¬AtEnd (ts ++ us) := by
  cases ts with
  | nil => exact absurd rfl hts
  | cons t rest => simpa [AtEnd] using h

mutual

/-- A statement is read in the same way from a longer list, unless the source ended too early. -/
theorem foretells_statement (hstop : stop.kind = .sourceEnd) (last : Token) (ts : List Token) :
    Foretells [] (fun stop ts => outcome (statement stop last ts)) stop ts := by
  cases ts with
  | nil => exact .blames_stop (outcome_statement_nil stop last) rfl
  | cons t rest =>
    have hread : ∀ stop' rest', outcome (statement stop' last (t :: rest')) = _ :=
      fun stop' rest' => outcome_statement_cons stop' last t rest'
    unfold statementAt at hread
    split at hread
    · exact .cons (foretells_declaration [] hstop false ‹_› rest) fun _ _ => hread _ _
    · refine .congr (.map (g := fun a => .assignment a.value)
        (foretells_assignment stop last (t :: rest)) fun _ _ _ _ => rfl) ?_ fun _ stop' us => ?_
      · exact hread stop rest
      · exact hread stop' (rest ++ us)
    · exact .cons (foretells_output stop t rest).of_nil fun _ _ => hread _ _
    · exact .cons (foretells_input stop t rest).of_nil fun _ _ => hread _ _
    · exact .cons (foretells_conditional hstop t rest).of_nil fun _ _ => hread _ _
    · exact .cons (foretells_loop hstop t rest).of_nil fun _ _ => hread _ _
    all_goals exact .fails (List.cons_ne_nil t rest) fun stop' us => ⟨_, hread stop' (rest ++ us)⟩
termination_by 4 * ts.length + 2
decreasing_by
  all_goals
    subst_vars
    simp only [List.length_cons]
    omega

theorem foretells_conditional (hstop : stop.kind = .sourceEnd) (start : Token) (ts : List Token) :
    Foretells [] (fun stop ts => outcome (conditional stop start ts)) stop ts := by
  simp only [outcome_conditional]
  refine (foretells_branch hstop .kung ts).seq fun first hfirst => ?_
  dsimp only
  refine (foretells_branches hstop first.last first.rest).seq fun others hothers => ?_
  dsimp only
  refine .optional (.keyword .kungWala)
    (.conditional first.value others.value none (start.span.join others.last.span)) others.last
    (fun stop' ts' hne => ?_) fun word us hw hrest => ?_
  · simp only [accepted_of_ne hne]
  · rw [hrest]
    refine .lead ?_
    simp only [accepted_of_eq hw]
    exact .map (foretells_block hstop .kungWala word us).of_nil fun _ _ _ _ => rfl
termination_by 4 * ts.length + 2
decreasing_by
  · omega
  · have := rest_length_lt hfirst
    omega
  · have := rest_length_lt hfirst
    have := rest_length_lt hothers
    simp only [hrest, List.length_cons] at this
    omega

theorem foretells_branches (hstop : stop.kind = .sourceEnd) (last : Token) (ts : List Token) :
    Foretells [] (fun stop ts => outcome (branches stop last ts)) stop ts := by
  have hread : ∀ stop ts, outcome (branches stop last ts) = _ :=
    fun stop ts => outcome_branches stop last ts
  simp only [hread]
  refine .optional (.keyword .kungDili) [] last (fun stop' ts' hne => ?_) fun word us hw hrest => ?_
  · simp only [accepted_of_ne hne]
  · rw [hrest]
    refine .lead ?_
    simp only [accepted_of_eq hw]
    refine .seq (foretells_branch hstop .kungDili us).of_nil fun first hfirst => ?_
    dsimp only
    exact .map (foretells_branches hstop first.last first.rest) fun _ _ _ _ => rfl
termination_by 4 * ts.length
decreasing_by
  · subst_vars
    simp only [List.length_cons]
    omega
  · have := rest_length_lt hfirst
    subst_vars
    simp only [List.length_cons] at this ⊢
    omega

theorem foretells_branch (hstop : stop.kind = .sourceEnd) (owner : Owner) (ts : List Token) :
    Foretells [] (fun stop ts => outcome (branch stop owner ts)) stop ts := by
  have hread : ∀ stop ts, outcome (branch stop owner ts) = _ :=
    fun stop ts => outcome_branch stop owner ts
  cases ts with
  | nil => exact .blames_stop (d := blame (.bareCondition owner) stop) (hread stop []) rfl
  | cons t rest =>
    by_cases ht : t.kind = .symbol .leftParen
    · have hbody : Foretells [] (fun stop ts => outcome (expression stop ts) >>= fun condition =>
          outcome (block stop owner condition.last condition.rest) >>= fun body =>
            .ok ⟨Branch.mk condition.value body.value, body.last, body.rest⟩) stop
          (t :: rest) := by
        refine (foretells_expression stop (t :: rest)).seq fun q hq => ?_
        dsimp only
        exact .map (foretells_block hstop owner q.last q.rest) fun _ _ _ _ => rfl
      refine hbody.congr ?_ fun _ stop' us => ?_
      · rw [hread]
        exact if_pos (congrArg some ht)
      · rw [hread]
        exact if_pos (congrArg some ht)
    · refine .fails (List.cons_ne_nil t rest) fun stop' us => ⟨blame (.bareCondition owner) t, ?_⟩
      rw [hread]
      exact if_neg fun hf => ht (Option.some.inj hf)
termination_by 4 * ts.length + 1
decreasing_by
  have := rest_length_lt hq
  subst_vars
  omega

theorem foretells_loop (hstop : stop.kind = .sourceEnd) (start : Token) (ts : List Token) :
    Foretells [] (fun stop ts => outcome (loop stop start ts)) stop ts := by
  simp only [outcome_loop]
  refine .expect_seq fun word us hrest => ?_
  dsimp only
  refine (foretells_loopHeader hstop word us).seq fun header hh => ?_
  dsimp only
  exact .map (foretells_block hstop .alangSa header.last header.rest) fun _ _ _ _ => rfl
termination_by 4 * ts.length + 2
decreasing_by
  have := rest_length_lt hh
  subst_vars
  simp only [List.length_cons] at this ⊢
  omega

theorem foretells_block (hstop : stop.kind = .sourceEnd) (owner : Owner) (last : Token)
    (ts : List Token) :
    Foretells [] (fun stop ts => outcome (block stop owner last ts)) stop ts := by
  simp only [outcome_block]
  refine .expect_seq fun word us hus => ?_
  dsimp only
  refine .expect_seq fun opening vs hvs => ?_
  dsimp only
  refine (foretells_statements hstop opening vs).seq fun body _ => ?_
  dsimp only
  exact .map (.expect stop body.last _ _ body.rest) fun _ _ _ _ => rfl
termination_by 4 * ts.length
decreasing_by
  subst_vars
  simp only [List.length_cons]
  omega

/-- Statements are read in the same way from a longer list, unless the source ended too early. -/
theorem foretells_statements (hstop : stop.kind = .sourceEnd) (last : Token) (ts : List Token) :
    Foretells [] (fun stop ts => outcome (statements stop last ts)) stop ts := by
  by_cases hnil : ts = []
  · subst hnil
    exact .finish [] last (outcome_statements_of_atEnd (.inl rfl))
  by_cases hend : AtEnd ts
  · refine .stay [] last fun stop' us => outcome_statements_of_atEnd ?_
    obtain ⟨t, rest, rfl, ht⟩ := exists_cons_of_front? (hend.resolve_left hnil)
    exact .inr (congrArg some ht)
  · have hread : Foretells [] (fun stop ts => outcome (statement stop last ts) >>= fun first =>
        outcome (statements stop first.last first.rest) >>= fun others =>
          .ok ⟨first.value :: others.value, others.last, others.rest⟩) stop ts := by
      refine (foretells_statement hstop last ts).seq fun first hfirst => ?_
      dsimp only
      exact .map (foretells_statements hstop first.last first.rest) fun _ _ _ _ => rfl
    refine hread.congr (outcome_statements_of_not_atEnd hend) fun hts stop' us => ?_
    exact outcome_statements_of_not_atEnd (not_atEnd_append hts hend)
termination_by 4 * ts.length + 3
decreasing_by
  · omega
  · have := rest_length_lt hfirst
    omega

end

end Parse

namespace Program

/-- The body of a program that breaks off. -/
theorem late_of_body {start stop close : Token} {ts us : List Token} {ss : List Stmt} {last : Token}
    (hstop : stop.kind = .sourceEnd)
    (h : outcome (Parse.statements close start (ts ++ us)) = .ok ⟨ss, last, []⟩) :
    ∃ d, body start stop ts = .error d ∧ Late stop ts d := by
  have hforetells := foretells_statements hstop start ts
  unfold body
  cases hr : outcome (Parse.statements stop start ts) with
  | error d =>
    refine ⟨d, rfl, (hforetells.error d hr).resolve_right ?_⟩
    rintro ⟨-, hfail⟩
    obtain ⟨d', hd'⟩ := hfail close us
    rw [h] at hd'
    cases hd'
  | ok q =>
    obtain ⟨c, -, hstable⟩ := hforetells.ok q hr
    cases hrest : q.rest with
    | cons t others =>
      have hall := hstable (by simp [hrest]) close us
      rw [h, hrest] at hall
      cases hall
    | nil =>
      refine ⟨unmet stop q.last .programEnd [], ?_, .inl (line_unmet_nil ..)⟩
      simp [hrest, hstop, Bind.bind, Except.bind]

/-- If a program breaks off before its first closing keyword, then it is not read. The end of the
source is blamed, or the token in front of it where a type or an initial value is missing. -/
theorem late_of_truncated {ts us : List Token} {p : Program} {stop : Token}
    (hp : ofTokens (ts ++ us) = .ok p) (hts : ∀ t ∈ ts, t.kind ≠ .keyword .katapusan)
    (hstop : stop.kind = .sourceEnd) :
    ∃ d, ofTokens (ts ++ [stop]) = .error d ∧ Late stop ts d := by
  cases ts with
  | nil =>
    have hstart : stop.kind ≠ .keyword .sugod := by simp [hstop]
    refine ⟨blame (.expected .programStart none) stop, ?_, .inl rfl⟩
    rw [List.nil_append, ofTokens, if_neg hstart, if_pos hstop]
  | cons start rest =>
    obtain ⟨start', all, close, after, last, heq, hs, hc, hall, hread⟩ := ofTokens_eq_ok_iff.1 hp
    obtain ⟨rfl, htail⟩ := List.cons.inj heq
    obtain ⟨more, rfl⟩ : ∃ more, all = rest ++ more := by
      rcases List.append_eq_append_iff.1 htail with ⟨more, hmore, -⟩ | ⟨more, hmore, hclose⟩
      · exact ⟨more, hmore⟩
      · cases more with
        | nil => exact ⟨[], by simpa using hmore.symm⟩
        | cons t others =>
          obtain ⟨rfl, -⟩ := List.cons.inj hclose
          exact absurd hc (hts _ (by simp [hmore]))
    obtain ⟨d, hd, hlate⟩ := late_of_body hstop hread
    have hends : ∀ t ∈ rest, endsBody t = false := fun t ht =>
      hall t (List.mem_append_left more ht)
    refine ⟨d, ?_, hlate.append [_]⟩
    rw [List.cons_append, ofTokens_eq_body hs (by simp [endsBody, hstop]) hends, hd]
    rfl

def declaring : List Token :=
  [⟨.keyword .sugod, "SUGOD", ⟨0, 5⟩, 1⟩, ⟨.keyword .mugna, "MUGNA", ⟨6, 11⟩, 2⟩,
    ⟨.keyword .numero, "NUMERO", ⟨12, 18⟩, 2⟩, ⟨.identifier, "x", ⟨19, 20⟩, 2⟩,
    ⟨.keyword .katapusan, "KATAPUSAN", ⟨21, 30⟩, 3⟩, ⟨.sourceEnd, "", ⟨30, 30⟩, 3⟩]

theorem ofTokens_declaring :
    ofTokens declaring = .ok ⟨[.declaration .numero [⟨"x", none, ⟨⟨19, 20⟩, 2⟩⟩] ⟨6, 20⟩]⟩ := by
  cbv

theorem late_of_truncated_declaration :
    (∃ p, ofTokens (declaring.take 3 ++ declaring.drop 3) = .ok p) ∧
      ∃ d, ofTokens (declaring.take 3 ++ [⟨.sourceEnd, "", ⟨19, 19⟩, 3⟩]) = .error d ∧
        Late ⟨.sourceEnd, "", ⟨19, 19⟩, 3⟩ (declaring.take 3) d := by
  have hp : ofTokens (declaring.take 3 ++ declaring.drop 3) = _ := ofTokens_declaring
  exact ⟨⟨_, hp⟩, late_of_truncated hp (by decide) rfl⟩

/-- Where the type of a declaration is missing, it is not the end of the source that is blamed. -/
theorem not_line_of_truncated : ¬∀ (ts us : List Token) (p : Program) (stop : Token),
    ofTokens (ts ++ us) = .ok p → (∀ t ∈ ts, t.kind ≠ .keyword .katapusan) →
      stop.kind = .sourceEnd →
        ∃ d, ofTokens (ts ++ [stop]) = .error d ∧ d.mark.line = stop.line := by
  intro h
  obtain ⟨d, hd, hline⟩ := h (declaring.take 2) (declaring.drop 2) _ ⟨.sourceEnd, "", ⟨13, 13⟩, 4⟩
    ofTokens_declaring (by decide) rfl
  have herror : ofTokens (declaring.take 2 ++ [⟨.sourceEnd, "", ⟨13, 13⟩, 4⟩]) =
      .error ⟨.grammatical (.notDataType "MUGNA"), ⟨⟨6, 11⟩, 2⟩⟩ := by cbv
  rw [herror] at hd
  cases hd
  cases hline

end Program

end BisayaPlus
