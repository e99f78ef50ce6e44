import BisayaPlus.Proofs.GrammarSoundness
import BisayaPlus.Proofs.Unmarked

/-!
What is grammatical is read. Each list in the grammar ends where its separator is missing, so a
phrase is read in full if the tokens behind it cannot continue it. Nothing that may stand behind a
statement continues one.
-/

namespace BisayaPlus

namespace BinaryOp

theorem kind_ne_equal (op : BinaryOp) : op.kind ≠ .symbol .equal := by
  cases op <;> decide

theorem strength_lt (op : BinaryOp) : op.strength < 6 := by
  cases op <;> decide

theorem kind_injective {op op' : BinaryOp} (h : op.kind = op'.kind) : op = op' := by
  have h' := ofKind?_eq_some_iff.2 h
  rw [ofKind?_eq_some_iff.2 rfl] at h'
  exact Option.some.inj h'

end BinaryOp

namespace Grammar

open Token Parse

/-- A reader that succeeds gave a result that is the same as another one under a view, and left the
given tokens. -/
def Gives {α β : Type} (view : α → β) (r : Except Diagnostic (Reading α)) (a : α)
    (rest : List Token) : Prop :=
  ∃ b last, r = .ok ⟨b, last, rest⟩ ∧ view b = view a

/-- What is given in two parts is given in sequence. -/
theorem Gives.bind {α β γ δ : Type} {view : α → β} {view' : γ → δ}
    {r : Except Diagnostic (Reading α)} {next : Reading α → Except Diagnostic (Reading γ)} {a : α}
    {c : γ} {rest rest' : List Token} (h : Gives view r a rest)
    (hnext : ∀ b last, view b = view a → Gives view' (next ⟨b, last, rest⟩) c rest') :
    Gives view' (r >>= next) c rest' := by
  obtain ⟨b, last, rfl, hb⟩ := h
  exact hnext b last hb

/-- The tokens cannot continue an expression of a level: the next one is no operator that is at
least as strong, and no equal sign, which would make a name the target of an assignment. -/
def EndsLevel (k : Nat) (rest : List Token) : Prop :=
  front? rest ≠ some (.symbol .equal) ∧
    ∀ op : BinaryOp, front? rest = some op.kind → op.strength < k

/-- What cannot continue a loose expression cannot continue a tight one. -/
theorem EndsLevel.mono {j k : Nat} {rest : List Token} (h : EndsLevel j rest) (hjk : j ≤ k) :
    EndsLevel k rest :=
  ⟨h.1, fun op hop => Nat.lt_of_lt_of_le (h.2 op hop) hjk⟩

theorem endsLevel_of_kind {k : Nat} {t : Token} {rest : List Token}
    (he : t.kind ≠ .symbol .equal) (ho : BinaryOp.ofKind? t.kind = none) :
    EndsLevel k (t :: rest) := by
  constructor
  · simpa using he
  · intro op h
    have hop := BinaryOp.ofKind?_eq_some_iff.2 (Option.some.inj h)
    rw [ho] at hop
    cases hop

/-- An operator cannot continue an expression of a tighter level. -/
theorem endsLevel_operator {op : BinaryOp} {k : Nat} {t : Token} {rest : List Token}
    (ht : t.kind = op.kind) (hk : op.strength < k) : EndsLevel k (t :: rest) := by
  constructor
  · simpa [ht] using BinaryOp.kind_ne_equal op
  · intro op' h
    have heq : op = op' := BinaryOp.kind_injective (ht.symm.trans (Option.some.inj h))
    exact heq ▸ hk

/-- An expression begins with what can begin an operand. -/
theorem ExprAt.beginsOperand {k : Nat} {ts rest : List Token} {e : Expr} (h : ExprAt k ts e rest)
    (hr : front? rest ≠ some (.symbol .equal)) : BeginsOperand ts := by
  induction h with
  | tighter hk he ih => exact ih hr
  | binary hop ht hl hr' ihl ihr =>
    exact ihl (by simpa [ht] using BinaryOp.kind_ne_equal _)
  | unary ho he ih =>
    cases ho with
    | negate ht => exact .symbol (by simp [ht])
    | plus ht => exact .symbol (by simp [ht])
    | not ht hb => exact .literal (by simp [ht.1])
  | literal hv hb => cases hv <;> exact .literal (by simp [*])
  | symbolText ht hs => exact .symbolText ht hs
  | name ht => exact .name ht hr
  | parens ho he hc ih => exact .symbol (by simp [ho])

/-- A unary operator of the grammar is read as one. -/
theorem UnaryOpAt.unaryOp?_eq {ts us : List Token} {op : UnaryOp} (h : UnaryOpAt ts op us) :
    ∃ t, ts = t :: us ∧ unaryOp? t us = some op := by
  cases h with
  | @negate t _ ht => exact ⟨t, rfl, unaryOp?_eq_some_iff.2 (.negate ht)⟩
  | @plus t _ ht => exact ⟨t, rfl, unaryOp?_eq_some_iff.2 (.plus ht)⟩
  | @not t _ ht hb => exact ⟨t, rfl, unaryOp?_eq_some_iff.2 (.not ht hb)⟩

def levelRest (stop : Token) (k : Nat) (q : Reading Expr) : Except Diagnostic (Reading Expr) :=
  if k < 6 then
    outcome (levelTail stop (BinaryOp.operators k) (BinaryOp.levels.drop (k + 1)) q.value q.last
      q.rest)
  else
    .ok q

theorem levelRest_of_endsLevel {stop : Token} {k : Nat} {q : Reading Expr}
    (h : EndsLevel k q.rest) : levelRest stop k q = .ok q := by
  unfold levelRest
  split
  · obtain ⟨e, last, rest⟩ := q
    cases rest with
    | nil => exact outcome_levelTail_nil ..
    | cons t us =>
      refine outcome_levelTail_of_none ?_
      rw [Option.eq_none_iff_forall_not_mem]
      intro op hop
      obtain ⟨ht, hs⟩ := binaryOp?_operators_eq_some_iff.1 hop
      have := h.2 op (by simp [ht])
      omega
  · rfl

/-- An expression of a level is an operand of the next level and what follows it. -/
theorem outcome_level_of_lt {stop : Token} {k : Nat} {ts : List Token} (hk : k < 6) :
    outcome (level stop (BinaryOp.levels.drop k) ts) =
      outcome (level stop (BinaryOp.levels.drop (k + 1)) ts) >>= levelRest stop k := by
  rw [BinaryOp.drop_levels hk, outcome_level_cons]
  congr 1
  funext q
  rw [levelRest, if_pos hk]

theorem outcome_level_six {stop t : Token} {rest : List Token} (h : unaryOp? t rest = none) :
    outcome (level stop (BinaryOp.levels.drop 6) (t :: rest)) = outcome (primary stop t rest) := by
  rw [← outcome_unary_of_none h]
  exact outcome_level_nil ..

theorem Literal.ne_symbol {t : Token} {v : Value} (h : Literal t v) (s : Symbol) :
    t.kind ≠ .symbol s := by
  cases h <;> simp [*]

/-- A literal is an operand. The word for false is one unless an operand stands behind it. -/
theorem unaryOp?_of_literal {t : Token} {rest : List Token} {v : Value} (hv : Literal t v)
    (hb : IsFalse t → ¬BeginsOperand rest) : unaryOp? t rest = none := by
  rw [Option.eq_none_iff_forall_not_mem]
  intro op hop
  cases unaryOp?_eq_some_iff.1 hop with
  | negate ht => exact hv.ne_symbol .minus ht
  | plus ht => exact hv.ne_symbol .plus ht
  | not ht hb' => exact hb ht hb'

theorem unaryOp?_of_symbolText {t : Token} {rest : List Token} {s : Symbol} {text : String}
    (ht : t.kind = .symbol s) (hs : SymbolText s text) : unaryOp? t rest = none := by
  cases hs <;> simp [unaryOp?, ht]

theorem BeginsOperand.eq_cons {ts : List Token} (h : BeginsOperand ts) :
    ∃ t rest, ts = t :: rest ∧ t.kind ≠ .symbol .rightParen := by
  rcases h with hk | hk | hk | ⟨hk, hs⟩
  · exact ⟨_, _, rfl, by rintro h; simp [h] at hk⟩
  · exact ⟨_, _, rfl, by simp [hk]⟩
  · exact ⟨_, _, rfl, by rintro h; simp [h] at hk⟩
  · refine ⟨_, _, rfl, ?_⟩
    rw [hk]
    cases hs <;> decide

theorem parenthesised_of_level {stop t closing last : Token} {us rest : List Token} {e : Expr}
    (h : outcome (level stop BinaryOp.levels us) = .ok ⟨e, last, closing :: rest⟩)
    (hb : BeginsOperand us) (hc : closing.kind = .symbol .rightParen) :
    parenthesised stop t us = .ok ⟨e, closing, rest⟩ := by
  obtain ⟨r, others, rfl, hr⟩ := hb.eq_cons
  rw [parenthesised, if_neg hr, h]
  show outcome (expect stop _ _ last (closing :: rest)) >>= _ = _
  rw [outcome_expect_of_eq hc]
  rfl

/-- Reading a level comes to the same as reading on after a phrase of it, whatever operators of
the level follow. -/
theorem ExprAt.level_eq {k : Nat} {ts rest : List Token} {e : Expr} (h : ExprAt k ts e rest)
    (hr : EndsLevel (k + 1) rest) (stop : Token) :
    ∃ e' last, e'.unmarked = e.unmarked ∧
      outcome (level stop (BinaryOp.levels.drop k) ts) = levelRest stop k ⟨e', last, rest⟩ := by
  -- The operand on the left of an operator is followed by that operator, so the induction must
  -- allow for operators of the level behind the phrase.
  induction h with
  | @tighter k ts rest e hk he ih =>
    obtain ⟨e', last, hu, h⟩ := ih (hr.mono (Nat.le_succ _))
    refine ⟨e', last, hu, ?_⟩
    rw [outcome_level_of_lt hk, h, levelRest_of_endsLevel hr]
    rfl
  | @binary k ts us rest t l r op m hop ht hl hr' ihl ihr =>
    have hk : k < 6 := hop ▸ BinaryOp.strength_lt op
    obtain ⟨l', lastl, hul, hl'⟩ := ihl (endsLevel_operator ht (by omega))
    obtain ⟨r', lastr, hur, hr''⟩ := ihr (hr.mono (Nat.le_succ _))
    refine ⟨joinOperands op t l' r', lastr, by simp [joinOperands, Expr.unmarked, hul, hur], ?_⟩
    have hop' := binaryOp?_operators_eq_some_iff.2 ⟨ht, hop⟩
    have hreq : requireOperand stop t us = .ok () :=
      requireOperand_eq_ok_iff.2 (hr'.beginsOperand hr.1)
    have hright : outcome (level stop (BinaryOp.levels.drop (k + 1)) us) = .ok ⟨r', lastr, rest⟩ :=
      hr''.trans (levelRest_of_endsLevel hr)
    rw [hl', levelRest, if_pos hk, outcome_levelTail_of_some hop', hreq, hright, levelRest,
      if_pos hk]
    rfl
  | @unary ts us rest e op m ho he ih =>
    obtain ⟨e', last, hu, h⟩ := ih hr
    obtain ⟨t, rfl, hop⟩ := ho.unaryOp?_eq
    refine ⟨.unary op e' ⟨t.span.join e'.mark.span, t.line⟩, last, by simp [Expr.unmarked, hu], ?_⟩
    have hreq : requireOperand stop t us = .ok () :=
      requireOperand_eq_ok_iff.2 (he.beginsOperand hr.1)
    have hoperand : outcome (Parse.unary stop us) = .ok ⟨e', last, rest⟩ :=
      (outcome_level_nil stop us).symm.trans h
    refine (outcome_level_nil stop _).trans ?_
    rw [outcome_unary_of_some hop, hreq, hoperand]
    rfl
  | @literal rest t v m hv hb =>
    refine ⟨.literal v t.mark, t, rfl, ?_⟩
    rw [outcome_level_six (unaryOp?_of_literal hv hb), outcome_primary,
      literal?_eq_some_ok_iff.2 hv]
    rfl
  | @symbolText rest t s text m ht hs =>
    refine ⟨.literal (.text text) t.mark, t, rfl, ?_⟩
    rw [outcome_level_six (unaryOp?_of_symbolText ht hs), outcome_primary]
    cases hs <;> simp [literal?, ht, symbolText?, levelRest]
  | @name rest t m ht =>
    have hop : unaryOp? t rest = none := by
      simp [unaryOp?, ht]
    refine ⟨.name t.lexeme t.mark, t, rfl, ?_⟩
    rw [outcome_level_six hop, outcome_primary]
    simp [literal?, ht, levelRest]
  | @parens us rest opening closing e ho he hc ih =>
    have hends : EndsLevel 0 (closing :: rest) :=
      endsLevel_of_kind (hc ▸ by decide) (hc ▸ by decide)
    obtain ⟨e', last, hu, h⟩ := ih (hends.mono (Nat.zero_le _))
    have hop : unaryOp? opening us = none := by
      simp [unaryOp?, ho]
    have hlevel : outcome (level stop BinaryOp.levels us) = .ok ⟨e', last, closing :: rest⟩ :=
      h.trans (levelRest_of_endsLevel hends)
    refine ⟨e', closing, hu, ?_⟩
    rw [outcome_level_six hop, outcome_primary]
    simp only [literal?, ho]
    exact parenthesised_of_level hlevel (he.beginsOperand hends.1) hc

theorem Gives.ok {α β : Type} {view : α → β} {a b : α} {last : Token} {rest : List Token}
    (h : view b = view a) : Gives view (.ok ⟨b, last, rest⟩) a rest :=
  ⟨b, last, rfl, h⟩

theorem Gives.expect {α β : Type} {view : α → β}
    {next : Reading Token → Except Diagnostic (Reading α)}
    {stop last t : Token} {kind : Token.Kind} {what : Expectation} {a : α} {us rest : List Token}
    (ht : t.kind = kind) (h : Gives view (next ⟨t, t, us⟩) a rest) :
    Gives view (outcome (expect stop kind what last (t :: us)) >>= next) a rest := by
  rw [outcome_expect_of_eq ht]
  exact h

/-- A derived expression is read, up to its marks. -/
theorem ExprAt.gives {ts rest : List Token} {e : Expr} (h : ExprAt 0 ts e rest)
    (hr : EndsLevel 0 rest) (stop : Token) :
    Gives Expr.unmarked (outcome (expression stop ts)) e rest := by
  obtain ⟨e', last, hu, he⟩ := h.level_eq (hr.mono (Nat.zero_le 1)) stop
  exact ⟨e', last, he.trans (levelRest_of_endsLevel hr), hu⟩

/-- A list with separators is read to its last item. -/
theorem Separated.gives {α β : Type} {separator : Token.Kind}
    {item : Token → List Token → Except Diagnostic (Reading α)}
    {list : Token → List Token → Except Diagnostic (Reading (List α))}
    {itemAt : List Token → α → List Token → Prop} {view : α → β} (ends : List Token → Prop)
    (hl : ReadsList separator item list)
    (hitem : ∀ {last ts a rest}, itemAt ts a rest → ends rest → Gives view (item last ts) a rest)
    (hends : ∀ {t rest}, t.kind = separator → ends (t :: rest)) {ts rest : List Token}
    {as : List α} (h : Separated itemAt separator ts as rest) (hr : ends rest)
    (hs : front? rest ≠ some separator) (last : Token) :
    Gives (List.map view) (list last ts) as rest := by
  induction h generalizing last with
  | one ha =>
    rw [hl]
    refine (hitem ha hr).bind fun b last hb => ?_
    dsimp only
    rw [accepted_of_ne hs]
    exact .ok (by simp [hb])
  | more ha ht has ih =>
    rw [hl]
    refine (hitem ha (hends ht)).bind fun b last hb => ?_
    dsimp only
    rw [accepted_of_eq ht]
    refine (ih hr hs _).bind fun bs last hbs => ?_
    exact .ok (by simpa [hb] using hbs)

theorem Literal.literal?_eq {t : Token} {v : Value} (h : Literal t v) :
    literal? t = some (.ok v) :=
  literal?_eq_some_ok_iff.2 h

theorem gives_signedLiteral {t : Token} {v : Value} {factor : Option Number}
    (h : signedLiteral? factor t = some (.ok v)) (stop last : Token) (rest : List Token) :
    Gives id (outcome (signedLiteral stop last factor (t :: rest))) v rest := by
  rw [outcome_signedLiteral]
  dsimp only
  rw [h]
  exact .ok rfl

/-- A derived initial value is read with its sign. -/
theorem InitialAt.gives {ts rest : List Token} {v : Value} (h : InitialAt ts v rest)
    (stop last : Token) : Gives id (outcome (initialValue stop last ts)) v rest := by
  rw [outcome_initialValue]
  cases h with
  | literal hv =>
    dsimp only
    rw [factor?_eq_none_iff.2 ⟨hv.ne_symbol _, hv.ne_symbol _⟩]
    refine gives_signedLiteral ?_ stop last rest
    rw [signedLiteral?_none, hv.literal?_eq]
  | negative hs hv =>
    dsimp only
    rw [factor?_eq_some_iff.2 (.inl ⟨hs, rfl⟩)]
    refine gives_signedLiteral (signedLiteral?_some_eq_some_ok_iff.2 ⟨_, hv, ?_⟩) stop _ rest
    rw [Number.mul_neg_ofNat_one hv.finite]
  | positive hs hv =>
    dsimp only
    rw [factor?_eq_some_iff.2 (.inr ⟨hs, rfl⟩)]
    refine gives_signedLiteral (signedLiteral?_some_eq_some_ok_iff.2 ⟨_, hv, ?_⟩) stop _ rest
    rw [Number.mul_ofNat_one hv.finite]

/-- A derived declarator is read, up to its marks. -/
theorem DeclaratorAt.gives {ts rest : List Token} {d : Declarator} (h : DeclaratorAt ts d rest)
    (hr : front? rest ≠ some (.symbol .equal)) (stop : Token) (type : DataType) (last : Token) :
    Gives Declarator.unmarked (outcome (declarator stop type last ts)) d rest := by
  rw [outcome_declarator]
  cases h with
  | bare ht =>
    refine .expect ht ?_
    dsimp only
    rw [accepted_of_ne hr]
    exact .ok rfl
  | initialized ht he hv =>
    refine .expect ht ?_
    dsimp only
    rw [accepted_of_eq he]
    refine (hv.gives stop _).bind fun b last hb => ?_
    exact .ok (by simp_all [Declarator.unmarked])

theorem gives_declarators {ts rest : List Token} {ds : List Declarator}
    (h : Separated DeclaratorAt (.symbol .comma) ts ds rest)
    (hr : front? rest ≠ some (.symbol .equal)) (hs : front? rest ≠ some (.symbol .comma))
    (stop : Token) (type : DataType) (last : Token) :
    Gives (List.map Declarator.unmarked) (outcome (declarators stop type last ts)) ds rest :=
  h.gives (front? · ≠ some (.symbol .equal)) (readsList_declarators stop type)
    (fun hd hr => hd.gives hr stop type _) (fun ht => by simp [ht]) hr hs last

theorem gives_outputValues {ts rest : List Token} {es : List Expr}
    (h : Separated (ExprAt 0) (.symbol .ampersand) ts es rest) (hr : EndsLevel 0 rest)
    (hs : front? rest ≠ some (.symbol .ampersand)) (stop : Token) :
    Gives (List.map Expr.unmarked) (outcome (outputValues stop ts)) es rest :=
  h.gives (EndsLevel 0) (readsList_outputValues stop) (fun he hr => he.gives hr stop)
    (fun ht => endsLevel_of_kind (ht ▸ by decide) (ht ▸ by decide)) hr hs stop

theorem NameAt.gives {ts rest : List Token} {name : String} (h : NameAt ts name rest)
    (stop last : Token) : Gives id (inputTarget stop last ts) name rest := by
  cases h with
  | mk ht => exact .expect ht (.ok rfl)

theorem gives_inputTargets {ts rest : List Token} {names : List String}
    (h : Separated NameAt (.symbol .comma) ts names rest)
    (hs : front? rest ≠ some (.symbol .comma)) (stop last : Token) :
    Gives (List.map id) (outcome (inputTargets stop last ts)) names rest :=
  h.gives (fun _ => True) (readsList_inputTargets stop) (fun hn _ => hn.gives stop _)
    (fun _ => trivial) trivial hs last

theorem BeginsOperand.furtherTargets_eq {ts : List Token} (h : BeginsOperand ts) (last : Token) :
    (furtherTargets last ts).reading = ⟨[], last, ts⟩ := by
  apply furtherTargets_of_ne
  rintro t rest rfl ht
  cases h with
  | literal hk => simp [ht] at hk
  | name hk hr => exact hr
  | symbol hk => simp [ht] at hk
  | symbolText hk hs => simp [ht] at hk

/-- All targets are read before the value, since no operand begins with a name and an equal sign. -/
theorem TargetsAt.furtherTargets_eq {ts rest : List Token} {names : List String}
    (h : TargetsAt ts names rest) (hb : BeginsOperand rest) (last : Token) :
    (furtherTargets last ts).value = names ∧ (furtherTargets last ts).rest = rest := by
  induction h generalizing last with
  | nil =>
    have h := hb.furtherTargets_eq last
    exact ⟨congrArg Reading.value h, congrArg Reading.rest h⟩
  | @cons t equal us rest names ht he hn ih =>
    obtain ⟨hvalue, hrest⟩ := ih hb equal
    have h := furtherTargets_cons us last ht he
    rw [hvalue, hrest] at h
    exact ⟨congrArg Reading.value h, congrArg Reading.rest h⟩

/-- A derived assignment is read with all its targets, up to its marks. -/
theorem AssignmentAt.gives {ts rest : List Token} {a : Assignment} (h : AssignmentAt ts a rest)
    (hr : EndsLevel 0 rest) (stop last : Token) :
    Gives Assignment.unmarked (outcome (assignment stop last ts)) a rest := by
  rw [outcome_assignment]
  cases h with
  | mk hn he =>
    cases hn with
    | cons ht he' hn =>
      refine .expect ht (.expect he' ?_)
      obtain ⟨hvalue, hrest⟩ := hn.furtherTargets_eq (he.beginsOperand hr.1) _
      dsimp only
      rw [hvalue, hrest]
      refine (he.gives hr stop).bind fun b last hb => ?_
      exact .ok (by simp [Assignment.unmarked, hb])

theorem AssignmentAt.exists_cons {ts rest : List Token} {a : Assignment}
    (h : AssignmentAt ts a rest) :
    ∃ t equal us, ts = t :: equal :: us ∧ t.kind = .identifier ∧
      equal.kind = .symbol .equal := by
  cases h with
  | mk hn he =>
    cases hn with
    | cons ht he' hn => exact ⟨_, _, _, rfl, ht, he'⟩

theorem gives_declaration {ts rest : List Token} {word : Token} {type : DataType}
    {ds : List Declarator} (hw : word.kind = .keyword type.keyword)
    (hd : Separated DeclaratorAt (.symbol .comma) ts ds rest)
    (hr : front? rest ≠ some (.symbol .equal)) (hs : front? rest ≠ some (.symbol .comma))
    (stop start : Token) (span : Span) :
    Gives Stmt.unmarked (outcome (declaration false stop start (word :: ts)))
      (.declaration type ds span) rest := by
  rw [outcome_declaration]
  simp only [ofKind?_eq_some_iff.2 hw]
  refine (gives_declarators hd hr hs stop type word).bind fun b last hb => ?_
  exact .ok (by simp [Stmt.unmarked, hb])

theorem LoopInitializerAt.gives {ts rest : List Token} {s : Stmt}
    (h : LoopInitializerAt ts s rest) (hr : EndsLevel 0 rest) (stop last : Token) :
    Gives Stmt.unmarked (outcome (loopInitializer stop last ts)) s rest := by
  rw [outcome_loopInitializer]
  cases h with
  | declaration ht hw hd =>
    rw [accepted_of_eq ht]
    dsimp only
    rw [outcome_declaration]
    simp only [ofKind?_eq_some_iff.2 hw, if_true]
    obtain ⟨b, last, hb, hu⟩ := hd.gives hr.1 stop _ _
    rw [hb]
    exact .ok (by simp [Stmt.unmarked, hu])
  | assignment ha =>
    have hgives := ha.gives hr stop last
    obtain ⟨t, equal, us, rfl, ht, -⟩ := ha.exists_cons
    rw [accepted_of_ne (by simp [ht])]
    dsimp only
    rw [if_pos (by simp [ht])]
    refine hgives.bind fun b last hb => ?_
    exact .ok (by simp [Stmt.unmarked, hb])

theorem LoopIncrementAt.gives {ts rest : List Token} {a : Assignment}
    (h : LoopIncrementAt ts a rest) (hr : EndsLevel 0 rest) (stop last : Token) :
    Gives Assignment.unmarked (outcome (loopIncrement stop last ts)) a rest := by
  cases h with
  | increment ht ho =>
    rw [outcome_loopIncrement_of_increment _ _ ht ho]
    exact .ok (by simp [incrementOf, Assignment.unmarked, Expr.unmarked])
  | assignment ha =>
    have hgives := ha.gives hr stop last
    obtain ⟨t, equal, us, rfl, -, he⟩ := ha.exists_cons
    rw [outcome_loopIncrement_of_ne]
    · exact hgives
    · intro t' us' hts _
      rw [← (List.cons.inj hts).2]
      simp [he]

/-- The derived clauses of a loop are read, up to their marks. -/
theorem LoopHeaderAt.gives {ts rest : List Token} {header : LoopHeader}
    (h : LoopHeaderAt ts header rest) (stop last : Token) :
    Gives LoopHeader.unmarked (outcome (loopHeader stop last ts)) header rest := by
  rw [outcome_loopHeader]
  cases h with
  | mk ho hi hm he hm' ha hc =>
    refine .expect ho ?_
    refine (hi.gives (endsLevel_of_kind (hm ▸ by decide) (hm ▸ by decide)) stop _).bind
      fun init last hinit => .expect hm ?_
    refine (he.gives (endsLevel_of_kind (hm' ▸ by decide) (hm' ▸ by decide)) stop).bind
      fun condition last hcondition => .expect hm' ?_
    refine (ha.gives (endsLevel_of_kind (hc ▸ by decide) (hc ▸ by decide)) stop _).bind
      fun increment last hincrement => .expect hc ?_
    exact .ok (by simp [LoopHeader.unmarked, hinit, hcondition, hincrement])

structure EndsStatement (rest : List Token) : Prop where
  level : EndsLevel 0 rest
  comma : front? rest ≠ some (.symbol .comma)
  ampersand : front? rest ≠ some (.symbol .ampersand)
  kungDili : front? rest ≠ some (.keyword .kungDili)
  kungWala : front? rest ≠ some (.keyword .kungWala)

theorem endsStatement_nil : EndsStatement [] where
  level := ⟨by simp, by simp⟩
  comma := by simp
  ampersand := by simp
  kungDili := by simp
  kungWala := by simp

theorem endsStatement_of_mem {t : Token} {rest : List Token}
    (h : t.kind ∈ [.symbol .rightBrace, .identifier, .keyword .mugna, .keyword .ipakita,
      .keyword .dawat, .keyword .kung, .keyword .alang]) : EndsStatement (t :: rest) := by
  simp only [List.mem_cons, List.not_mem_nil, or_false] at h
  constructor
  · apply endsLevel_of_kind
    · rcases h with h | h | h | h | h | h | h <;> simp [h]
    · rcases h with h | h | h | h | h | h | h <;> simp [h, BinaryOp.ofKind?]
  all_goals
    rcases h with h | h | h | h | h | h | h <;> simp [h]

/-- A statement begins with a name or with one of five keywords. -/
theorem StatementAt.exists_cons {ts rest : List Token} {s : Stmt} (h : StatementAt ts s rest) :
    ∃ t us, ts = t :: us ∧ t.kind ∈ [.identifier, .keyword .mugna, .keyword .ipakita,
      .keyword .dawat, .keyword .kung, .keyword .alang] := by
  cases h with
  | assignment ha =>
    obtain ⟨t, equal, us, rfl, ht, -⟩ := ha.exists_cons
    exact ⟨t, _, rfl, by simp [ht]⟩
  | declaration ht | output ht | input ht | conditional ht | loop ht =>
    exact ⟨_, _, rfl, by simp [ht]⟩

theorem StatementAt.not_atEnd {ts rest : List Token} {s : Stmt} (h : StatementAt ts s rest) :
    ¬AtEnd ts := by
  obtain ⟨t, us, rfl, ht⟩ := h.exists_cons
  rintro (h | h)
  · cases h
  · have hk : t.kind = .symbol .rightBrace := Option.some.inj h
    simp [hk] at ht

theorem endsStatement_of_atEnd {ts : List Token} (h : AtEnd ts) : EndsStatement ts := by
  cases ts with
  | nil => exact endsStatement_nil
  | cons t us =>
    rcases h with h | h
    · cases h
    · have hk : t.kind = .symbol .rightBrace := Option.some.inj h
      exact endsStatement_of_mem (by simp [hk])

theorem StatementsAt.endsStatement {ts rest : List Token} {ss : List Stmt}
    (h : StatementsAt ts ss rest) (hr : AtEnd rest) : EndsStatement ts := by
  cases h with
  | nil => exact endsStatement_of_atEnd hr
  | cons hs hss =>
    obtain ⟨t, us, rfl, ht⟩ := hs.exists_cons
    exact endsStatement_of_mem (List.mem_cons_of_mem _ ht)

theorem BlockAt.endsLevel {k : Nat} {ts rest : List Token} {b : Block} (h : BlockAt ts b rest) :
    EndsLevel k ts := by
  cases h with
  | mk hw ho hs hc => exact endsLevel_of_kind (hw ▸ by decide) (hw ▸ by decide)

theorem front?_ne_of_otherwiseAt {ts rest : List Token} {b : Option Block}
    (h : OtherwiseAt ts b rest) (hr : EndsStatement rest) :
    front? ts ≠ some (.keyword .kungDili) := by
  cases h with
  | none => exact hr.kungDili
  | some hw hb => simp [hw]

mutual

/-- A derived statement is read, up to its marks, in front of what cannot continue it. -/
theorem StatementAt.gives {ts rest : List Token} {s : Stmt} (h : StatementAt ts s rest)
    (hr : EndsStatement rest) (stop last : Token) :
    Gives Stmt.unmarked (outcome (statement stop last ts)) s rest :=
  match h with
  | .declaration ht hw hd => by
    rw [outcome_statement_cons]
    simp only [statementAt, ht]
    exact gives_declaration hw hd hr.level.1 hr.comma stop _ _
  | .assignment ha => by
    have hgives := ha.gives hr.level stop last
    obtain ⟨t, equal, us, rfl, ht, -⟩ := ha.exists_cons
    rw [outcome_statement_cons]
    simp only [statementAt, ht]
    refine hgives.bind fun b last hb => ?_
    exact .ok (by simp [Stmt.unmarked, hb])
  | .output ht hc he => by
    rw [outcome_statement_cons]
    simp only [statementAt, ht]
    rw [outcome_output]
    refine .expect hc ((gives_outputValues he hr.level hr.ampersand stop).bind fun b last hb => ?_)
    exact .ok (by simp [Stmt.unmarked, hb])
  | .input ht hc hn => by
    rw [outcome_statement_cons]
    simp only [statementAt, ht]
    rw [outcome_input]
    refine .expect hc ((gives_inputTargets hn hr.comma stop _).bind fun b last hb => ?_)
    exact .ok (by simpa [Stmt.unmarked] using hb)
  | .conditional ht hf hb ho => by
    rw [outcome_statement_cons]
    simp only [statementAt, ht]
    rw [outcome_conditional]
    refine (hf.gives stop _).bind fun first last hfirst => ?_
    refine (hb.gives (front?_ne_of_otherwiseAt ho hr) stop _).bind fun others last hothers => ?_
    cases ho with
    | none =>
      dsimp only
      rw [accepted_of_ne hr.kungWala]
      exact .ok (by simp [Stmt.unmarked, hfirst, hothers, Block.unmarkedOptional])
    | some hw hbody =>
      dsimp only
      rw [accepted_of_eq hw]
      refine (hbody.gives stop _ _).bind fun body last hbody => ?_
      exact .ok (by simp [Stmt.unmarked, hfirst, hothers, Block.unmarkedOptional, hbody])
  | .loop ht hw hh hb => by
    rw [outcome_statement_cons]
    simp only [statementAt, ht]
    rw [outcome_loop]
    refine .expect hw ((hh.gives stop _).bind fun header last hheader => ?_)
    refine (hb.gives stop _ _).bind fun body last hbody => ?_
    simp only [LoopHeader.unmarked, LoopHeader.mk.injEq] at hheader
    exact .ok (by simp [Stmt.unmarked, hheader, hbody])

theorem BranchAt.gives {ts rest : List Token} {b : Branch} (h : BranchAt ts b rest)
    (stop : Token) (owner : Owner) :
    Gives Branch.unmarked (outcome (branch stop owner ts)) b rest :=
  match h with
  | .mk hf he hb => by
    rw [outcome_branch, if_pos hf]
    refine (he.gives hb.endsLevel stop).bind fun condition last hcondition => ?_
    refine (hb.gives stop owner _).bind fun body last hbody => ?_
    exact .ok (by simp [Branch.unmarked, hcondition, hbody])

theorem BranchesAt.gives {ts rest : List Token} {bs : List Branch} (h : BranchesAt ts bs rest)
    (hr : front? rest ≠ some (.keyword .kungDili)) (stop last : Token) :
    Gives Branch.unmarkedAll (outcome (branches stop last ts)) bs rest :=
  match h with
  | .nil => by
    rw [outcome_branches, accepted_of_ne hr]
    exact .ok rfl
  | .cons ht hb hbs => by
    rw [outcome_branches, accepted_of_eq ht]
    refine (hb.gives stop _).bind fun first last hfirst => ?_
    refine (hbs.gives hr stop _).bind fun others last hothers => ?_
    exact .ok (by simp [Branch.unmarkedAll, hfirst, hothers])

theorem BlockAt.gives {ts rest : List Token} {b : Block} (h : BlockAt ts b rest)
    (stop : Token) (owner : Owner) (last : Token) :
    Gives Block.unmarked (outcome (block stop owner last ts)) b rest :=
  match h with
  | .mk hw ho hs hc => by
    rw [outcome_block]
    refine .expect hw (.expect ho ?_)
    refine (hs.gives (.inr (by simp [hc])) stop _).bind fun body last hbody => ?_
    exact .expect hc (.ok (by simp [Block.unmarked, hbody]))

/-- Derived statements are read to the last one, up to their marks. -/
theorem StatementsAt.gives {ts rest : List Token} {ss : List Stmt} (h : StatementsAt ts ss rest)
    (hr : AtEnd rest) (stop last : Token) :
    Gives Stmt.unmarkedAll (outcome (statements stop last ts)) ss rest :=
  match h with
  | .nil => by
    rw [outcome_statements_of_atEnd hr]
    exact .ok rfl
  | .cons hs hss => by
    rw [outcome_statements_of_not_atEnd hs.not_atEnd]
    refine (hs.gives (hss.endsStatement hr) stop last).bind fun first last hfirst => ?_
    refine (hss.gives hr stop _).bind fun others last hothers => ?_
    exact .ok (by simp [Stmt.unmarkedAll, hfirst, hothers])

end

end Grammar

/-- A body that the grammar derives makes a program that is read. -/
theorem Program.exists_ofTokens_eq_ok {start close : Token} {body rest : List Token}
    {ss : List Stmt} (hs : start.kind = .keyword .sugod) (hc : close.kind = .keyword .katapusan)
    (hb : ∀ t ∈ body, endsBody t = false) (h : Grammar.StatementsAt body ss []) :
    ∃ q, ofTokens (start :: (body ++ close :: rest)) = .ok q ∧
      q.unmarked = Program.unmarked ⟨ss⟩ := by
  obtain ⟨ss', last, hss, hu⟩ := h.gives (.inl rfl) close start
  refine ⟨⟨ss'⟩, ?_, congrArg Program.mk hu⟩
  exact ofTokens_eq_ok_iff.2 ⟨start, body, close, rest, last, rfl, hs, hc, hb, hss⟩

/-- A list of tokens that is read as a program is a body between the opening and the closing word,
with more tokens behind it. The grammar derives the program from the body and, apart from the
places of its parts, no other program. -/
theorem Program.derives_of_ofTokens_eq_ok {ts : List Token} {p : Program}
    (h : ofTokens ts = .ok p) :
    ∃ start body close rest, ts = start :: (body ++ close :: rest) ∧
      start.kind = .keyword .sugod ∧ close.kind = .keyword .katapusan ∧
      (∀ t ∈ body, t.kind ≠ .keyword .katapusan) ∧
      Grammar.StatementsAt body p.statements [] ∧
      ∀ ss, Grammar.StatementsAt body ss [] → Program.unmarked ⟨ss⟩ = p.unmarked := by
  obtain ⟨start, body, close, rest, last, rfl, hs, hc, hb, hss⟩ := ofTokens_eq_ok_iff.1 h
  refine ⟨start, body, close, rest, rfl, hs, hc, ?_, Grammar.statementsAt_of_statements hss, ?_⟩
  · intro t ht hk
    have hends := hb t ht
    simp [endsBody, hk] at hends
  · intro ss hderives
    obtain ⟨q, hq, hu⟩ := exists_ofTokens_eq_ok hs hc hb hderives
    obtain rfl : q = p := Except.ok.inj (hq.symm.trans h)
    exact hu.symm

/-- A body in which the word for false negates a name. -/
theorem Program.derives_negation :
    ∃ start body close rest,
      [⟨.keyword .sugod, "SUGOD", ⟨0, 5⟩, 1⟩, ⟨.keyword .ipakita, "IPAKITA", ⟨6, 13⟩, 1⟩,
        ⟨.symbol .colon, ":", ⟨13, 14⟩, 1⟩, ⟨.boolean, "DILI", ⟨15, 19⟩, 1⟩,
        ⟨.identifier, "b", ⟨20, 21⟩, 1⟩, ⟨.keyword .katapusan, "KATAPUSAN", ⟨22, 31⟩, 1⟩,
        ⟨.sourceEnd, "", ⟨31, 31⟩, 1⟩] = start :: (body ++ close :: rest) ∧
      start.kind = .keyword .sugod ∧ close.kind = .keyword .katapusan ∧
      (∀ t ∈ body, t.kind ≠ .keyword .katapusan) ∧
      Grammar.StatementsAt body
        [.output [.unary .not (.name "b" ⟨⟨20, 21⟩, 1⟩) ⟨⟨15, 21⟩, 1⟩] ⟨6, 21⟩] [] ∧
      ∀ ss, Grammar.StatementsAt body ss [] → Program.unmarked ⟨ss⟩ =
        Program.unmarked
          ⟨[.output [.unary .not (.name "b" ⟨⟨20, 21⟩, 1⟩) ⟨⟨15, 21⟩, 1⟩] ⟨6, 21⟩]⟩ :=
  derives_of_ofTokens_eq_ok (by cbv)

end BisayaPlus
