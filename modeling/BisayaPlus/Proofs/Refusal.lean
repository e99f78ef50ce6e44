import BisayaPlus.Interpreter
import BisayaPlus.Proofs.ErrorDetection
import BisayaPlus.Proofs.Tiling

/-!
Why tokens and source texts are refused. A syntax fault says something true of the token that it
is blamed on, and that token is one of those that were read or the stop behind them. Only two
faults are placed otherwise: empty parentheses are placed on both of them, and what is missing at
the end of the source is placed behind the last token. A text without tokens is refused at a piece
of its own.
-/

namespace BisayaPlus

open Token

/-- What a fault says about the token that it is blamed on. -/
def SyntaxFault.Suits : SyntaxFault → Token → Prop
  | .expected _ found, t => found = some t.lexeme ∨ found = none ∧ t.kind = .sourceEnd
  | .strayClause keyword, t => t.kind = .keyword keyword
  | .missingStatement, _ => False
  | .notStatement lexeme, t => lexeme = t.lexeme
  | .notDataType lexeme, t => lexeme = t.lexeme
  | .notLiteral lexeme, t => lexeme = t.lexeme
  | .emptyCharacter, t => t.kind = .character ∧ t.lexeme.toList = []
  | .numberTooLarge, t => t.kind = .number ∧
      ∃ n, Number.ofText? t.lexeme.toList = some n ∧ n.isFinite = false
  | .invalidNumber lexeme, t => t.kind = .number ∧ lexeme = t.lexeme ∧
      Number.ofText? t.lexeme.toList = none
  | .bareCondition _, _ => True
  | .notInitializer lexeme, t => lexeme = t.lexeme
  | .missingExpression, t => t.kind = .sourceEnd
  | .emptyParentheses, _ => False
  | .missingOperand _, _ => True
  | .notExpression kind lexeme, t => kind = t.kind ∧ lexeme = t.lexeme

namespace Parse

/-- A diagnostic on some tokens with a stop behind them. -/
inductive Refusal (stop : Token) (ts : List Token) : Diagnostic → Prop
  | blamed {t : Token} {fault : SyntaxFault} (ht : t ∈ ts ∨ t = stop) (hf : fault.Suits t) :
      Refusal stop ts (blame fault t)
  | parentheses {opening closing : Token} (h : [opening, closing] <:+: ts) :
      Refusal stop ts
        ⟨.grammatical .emptyParentheses, ⟨opening.span.join closing.span, opening.line⟩⟩
  | ended {last : Token} {what : Expectation} (hl : [last] <:+ ts) (hs : stop.kind = .sourceEnd) :
      Refusal stop ts ⟨.grammatical (.expected what none), ⟨last.span.next, stop.line⟩⟩

/-- A reader that was given some tokens returns the last one that it took with those behind it, or
refuses them. -/
structure Accounts {α : Type} (stop : Token) (ts : List Token)
    (r : Except Diagnostic (Reading α)) : Prop where
  ok : ∀ q, r = .ok q → q.last :: q.rest <:+ ts
  error : ∀ d, r = .error d → Refusal stop ts d

variable {α β : Type} {stop last t : Token} {ts us rest : List Token}

/-- A refusal remains one with further tokens in front. -/
theorem Refusal.mono {d : Diagnostic} (h : Refusal stop us d) (hs : us <:+ ts) :
    Refusal stop ts d := by
  cases h with
  | blamed ht hf => exact .blamed (ht.imp_left fun hmem => hs.mem hmem) hf
  | parentheses h => exact .parentheses (h.trans hs.isInfix)
  | ended hl hstop => exact .ended (hl.trans hs) hstop

/-- The token that stands next is one of those to be read, or the stop. -/
theorem next_mem (stop : Token) (ts : List Token) : next stop ts ∈ ts ∨ next stop ts = stop := by
  cases ts with
  | nil => exact .inr rfl
  | cons t rest => exact .inl List.mem_cons_self

/-- What is missing is placed on the token that stands next, or behind the last one. -/
theorem refusal_unmet (stop last : Token) (what : Expectation) (ts : List Token) :
    Refusal stop (last :: ts) (unmet stop last what ts) := by
  cases ts with
  | nil =>
    by_cases hs : stop.kind = .sourceEnd
    · rw [unmet, if_pos hs]
      exact .ended List.suffix_rfl hs
    · rw [unmet, if_neg hs]
      exact .blamed (.inr rfl) (.inl rfl)
  | cons t rest => exact .blamed (.inl (by simp)) (.inl rfl)

theorem taken_nil (stop last : Token) : taken stop last [] = last ∨ taken stop last [] = stop := by
  by_cases hs : stop.kind = .sourceEnd
  · exact .inl (if_pos hs)
  · exact .inr (if_neg hs)

namespace Accounts

variable {r : Except Diagnostic (Reading α)}

theorem of_ok (v : α) (last : Token) (rest : List Token) :
    Accounts stop (last :: rest) (.ok ⟨v, last, rest⟩) where
  ok q hq := by
    cases hq
    exact List.suffix_rfl
  error d hd := by cases hd

theorem of_error {d : Diagnostic} (h : Refusal stop ts d) :
    Accounts stop ts (.error d : Except Diagnostic (Reading α)) where
  ok q hq := by cases hq
  error d' hd' := by
    cases hd'
    exact h

theorem blames {fault : SyntaxFault} (ht : t ∈ ts ∨ t = stop) (hf : fault.Suits t) :
    Accounts stop ts (.error (blame fault t) : Except Diagnostic (Reading α)) :=
  of_error (.blamed ht hf)

theorem mono (h : Accounts stop us r) (hs : us <:+ ts) : Accounts stop ts r where
  ok q hq := (h.ok q hq).trans hs
  error d hd := (h.error d hd).mono hs

/-- What is read behind a token belongs to what is read from that token on. -/
theorem behind (h : Accounts stop ts r) (t : Token) : Accounts stop (t :: ts) r :=
  h.mono (List.suffix_cons t ts)

/-- One reader and then another behind it. -/
theorem bind {x : Except Diagnostic (Reading β)} {f : Reading β → Except Diagnostic (Reading α)}
    (hx : Accounts stop ts x)
    (hf : ∀ q, x = .ok q → Accounts stop (q.last :: q.rest) (f q)) :
    Accounts stop ts (x >>= f) := by
  cases hr : x with
  | error d => exact of_error (hx.error d hr)
  | ok q => exact (hf q hr).mono (hx.ok q hr)

/-- The value of a reader may be turned into another. -/
theorem map {x : Except Diagnostic (Reading β)} (hx : Accounts stop ts x) (g : Reading β → α) :
    Accounts stop ts (x >>= fun q => .ok ⟨g q, q.last, q.rest⟩) :=
  hx.bind fun q _ => of_ok (g q) q.last q.rest

/-- A token of the wrong kind is refused with what was wanted. -/
theorem expect (stop last : Token) (kind : Token.Kind) (what : Expectation) (ts : List Token) :
    Accounts stop (last :: ts) (outcome (Parse.expect stop kind what last ts)) := by
  cases ts with
  | nil => exact of_error (refusal_unmet stop last what [])
  | cons t rest =>
    by_cases hk : t.kind = kind
    · rw [outcome_expect_of_eq hk]
      exact (of_ok t t rest).behind last
    · have hread : outcome (Parse.expect stop kind what last (t :: rest)) =
          .error (unmet stop last what (t :: rest)) := by simp [Parse.expect, hk]
      rw [hread]
      exact of_error (refusal_unmet stop last what (t :: rest))

theorem require (operator : Token) (h : Accounts stop ts r) :
    Accounts stop ts (requireOperand stop operator ts >>= fun _ => r) := by
  cases hs : startsOperand ts with
  | true =>
    rw [requireOperand, hs]
    exact h
  | false =>
    rw [requireOperand, hs]
    exact blames (next_mem stop ts) trivial

end Accounts

theorem accounts_noOperand (stop : Token) (ts : List Token) :
    Accounts stop ts (.error (noOperand stop) : Except Diagnostic (Reading α)) := by
  unfold noOperand
  split
  · exact .blames (.inr rfl) ‹_›
  · exact .blames (.inr rfl) ⟨rfl, rfl⟩

/-- A number that cannot be read is blamed on its token. -/
theorem accounts_number (ht : t ∈ ts) (hk : t.kind = .number) {f : Number → Reading α}
    (hf : ∀ n, (f n).last :: (f n).rest <:+ ts) :
    Accounts stop ts (number t >>= fun n => .ok (f n)) := by
  unfold number
  split
  · rename_i n hn
    split
    · exact (Accounts.of_ok (f n).value (f n).last (f n).rest).mono (hf n)
    · rename_i hfinite
      exact .blames (.inl ht) ⟨hk, n, hn, Bool.eq_false_iff.2 hfinite⟩
  · rename_i hn
    exact .blames (.inl ht) ⟨hk, rfl, hn⟩

theorem accounts_literal {value : Except Diagnostic Value} (hl : literal? t = some value)
    (f : Value → α) : Accounts stop (t :: rest) (value >>= fun v => .ok ⟨f v, t, rest⟩) := by
  unfold literal? at hl
  split at hl
  · rename_i hk
    cases hl
    have hread : ((number t).map Value.number >>= fun v => .ok ⟨f v, t, rest⟩) =
        (number t >>= fun n => .ok (⟨f (.number n), t, rest⟩ : Reading α)) := by
      cases number t <;> rfl
    rw [hread]
    exact accounts_number List.mem_cons_self hk fun n => List.suffix_rfl
  · cases hl
    exact .of_ok _ t rest
  · rename_i hk
    cases hl
    cases hc : t.lexeme.toList with
    | nil =>
      have hread : ((character t).map Value.character >>= fun v =>
          .ok (⟨f v, t, rest⟩ : Reading α)) = .error (blame .emptyCharacter t) := by
        rw [character, hc]
        rfl
      rw [hread]
      exact .blames (.inl List.mem_cons_self) ⟨hk, hc⟩
    | cons c cs =>
      have hread : ((character t).map Value.character >>= fun v =>
          .ok (⟨f v, t, rest⟩ : Reading α)) = .ok ⟨f (.character c), t, rest⟩ := by
        rw [character, hc]
        rfl
      rw [hread]
      exact .of_ok _ t rest
  · cases hl
    exact .of_ok _ t rest
  · cases hl

theorem accounts_parenthesised
    (hin : Accounts stop rest (outcome (level stop BinaryOp.levels rest))) :
    Accounts stop (t :: rest) (parenthesised stop t rest) := by
  unfold parenthesised
  split
  · exact accounts_noOperand stop [t]
  · rename_i r others
    split
    · exact .of_error (.parentheses ⟨[], others, rfl⟩)
    · refine (hin.behind t).bind fun inner _ => ?_
      exact (Accounts.expect stop inner.last _ _ inner.rest).map fun _ => inner.value

mutual

theorem accounts_level (stop : Token) (levels : List (List BinaryOp)) (ts : List Token) :
    Accounts stop ts (outcome (level stop levels ts)) := by
  cases levels with
  | nil =>
    rw [outcome_level_nil]
    exact accounts_unary stop ts
  | cons ops tighter =>
    rw [outcome_level_cons]
    exact (accounts_level stop tighter ts).bind fun q hq =>
      accounts_levelTail stop ops tighter q.value q.last q.rest
termination_by 10 * ts.length + levels.length + 2
decreasing_by
  · simp only [List.length_nil]
    omega
  · simp only [List.length_cons]
    omega
  · have := rest_length_lt hq
    simp only [List.length_cons]
    omega

theorem accounts_levelTail (stop : Token) (ops : List BinaryOp) (tighter : List (List BinaryOp))
    (left : Expr) (last : Token) (ts : List Token) :
    Accounts stop (last :: ts) (outcome (levelTail stop ops tighter left last ts)) := by
  cases ts with
  | nil =>
    rw [outcome_levelTail_nil]
    exact .of_ok left last []
  | cons t rest =>
    cases hop : binaryOp? ops t with
    | none =>
      rw [outcome_levelTail_of_none hop]
      exact .of_ok left last (t :: rest)
    | some op =>
      rw [outcome_levelTail_of_some hop]
      refine Accounts.behind (Accounts.behind (.require t ?_) t) last
      exact (accounts_level stop tighter rest).bind fun right hright =>
        accounts_levelTail stop ops tighter _ right.last right.rest
termination_by 10 * ts.length + tighter.length
decreasing_by
  · subst_vars
    simp only [List.length_cons]
    omega
  · have := rest_length_lt hright
    subst_vars
    simp only [List.length_cons]
    omega

theorem accounts_unary (stop : Token) (ts : List Token) :
    Accounts stop ts (outcome (unary stop ts)) := by
  cases ts with
  | nil =>
    rw [outcome_unary_nil]
    exact accounts_noOperand stop []
  | cons t rest =>
    cases hop : unaryOp? t rest with
    | none =>
      rw [outcome_unary_of_none hop]
      exact accounts_primary stop t rest
    | some op =>
      rw [outcome_unary_of_some hop]
      refine Accounts.behind (.require t ?_) t
      exact (accounts_unary stop rest).map _
termination_by 10 * ts.length + 1
decreasing_by
  all_goals
    subst_vars
    simp only [List.length_cons]
    omega

theorem accounts_primary (stop t : Token) (rest : List Token) :
    Accounts stop (t :: rest) (outcome (primary stop t rest)) := by
  rw [outcome_primary]
  split
  · exact accounts_literal ‹_› _
  split
  · exact .of_ok _ t rest
  · exact accounts_parenthesised (accounts_level stop BinaryOp.levels rest)
  · split
    · exact .of_ok _ t rest
    · exact .blames (.inl List.mem_cons_self) ⟨rfl, rfl⟩
  · exact .blames (.inl List.mem_cons_self) ⟨rfl, rfl⟩
termination_by 10 * rest.length + 10
decreasing_by
  have : BinaryOp.levels.length = 6 := rfl
  omega

end

/-- An expression is read or refused on one of its tokens. -/
theorem accounts_expression (stop : Token) (ts : List Token) :
    Accounts stop ts (outcome (expression stop ts)) :=
  accounts_level stop BinaryOp.levels ts

/-- If items are accounted for, so is a list of them. -/
theorem accounts_of_readsList {separator : Token.Kind}
    {item : Token → List Token → Except Diagnostic (Reading α)}
    {list : Token → List Token → Except Diagnostic (Reading (List α))}
    (h : ReadsList separator item list)
    (hlt : ∀ {last ts q}, item last ts = .ok q → q.rest.length < ts.length)
    (hitem : ∀ last ts, Accounts stop (last :: ts) (item last ts)) (last : Token)
    (ts : List Token) : Accounts stop (last :: ts) (list last ts) := by
  rw [h]
  refine (hitem last ts).bind fun first hfirst => ?_
  split
  · exact .of_ok _ first.last first.rest
  · rename_i s hs
    obtain ⟨t, rest, hrest, -, rfl⟩ := accepted_eq_some_iff.1 hs
    rw [hrest]
    exact ((accounts_of_readsList h hlt hitem t rest).map _).behind first.last
termination_by ts.length
decreasing_by
  have := hlt hfirst
  simp only [hrest, List.length_cons] at this
  omega

theorem accounts_signedLiteral? {factor : Option Number} {t : Token}
    {value : Except Diagnostic Value} (hl : signedLiteral? factor t = some value)
    (rest : List Token) : Accounts stop (t :: rest) (value >>= fun v => .ok ⟨v, t, rest⟩) := by
  unfold signedLiteral? at hl
  split at hl
  · rename_i hk
    cases hl
    have hread : (((number t).map fun n => Value.number (n.mul (factor.getD (.ofNat 1)))) >>=
        fun v => .ok ⟨v, t, rest⟩) = (number t >>= fun n =>
          .ok (⟨.number (n.mul (factor.getD (.ofNat 1))), t, rest⟩ : Reading Value)) := by
      cases number t <;> rfl
    rw [hread]
    exact accounts_number List.mem_cons_self hk fun n => List.suffix_rfl
  split at hl
  · cases hl
  · exact accounts_literal hl id

theorem accounts_signedLiteral (stop last : Token) (factor : Option Number) (ts : List Token) :
    Accounts stop (last :: ts) (outcome (signedLiteral stop last factor ts)) := by
  rw [outcome_signedLiteral]
  split
  · exact .blames (by simpa using taken_nil stop last) rfl
  split
  · exact (accounts_signedLiteral? ‹_› _).behind last
  · exact .blames (.inl (by simp)) rfl

theorem accounts_initialValue (stop last : Token) (ts : List Token) :
    Accounts stop (last :: ts) (outcome (initialValue stop last ts)) := by
  rw [outcome_initialValue]
  split
  · exact accounts_signedLiteral stop last none []
  split
  · exact (accounts_signedLiteral stop _ _ _).behind last
  · exact accounts_signedLiteral stop last none _

theorem accounts_declarator (stop : Token) (type : DataType) (last : Token) (ts : List Token) :
    Accounts stop (last :: ts) (outcome (declarator stop type last ts)) := by
  rw [outcome_declarator]
  refine (Accounts.expect stop last _ _ ts).bind fun name _ => ?_
  split
  · exact .of_ok _ name.last name.rest
  · rename_i equal hequal
    obtain ⟨t, rest, hrest, -, rfl⟩ := accepted_eq_some_iff.1 hequal
    rw [hrest]
    exact ((accounts_initialValue stop t rest).map _).behind name.last

theorem accounts_declaration (single : Bool) (stop start : Token) (ts : List Token) :
    Accounts stop (start :: ts) (outcome (declaration single stop start ts)) := by
  rw [outcome_declaration]
  split
  · exact .blames (by simpa using taken_nil stop start) rfl
  · rename_i t rest
    split
    · exact .blames (.inl (by simp)) rfl
    · rename_i type _
      refine Accounts.behind (Accounts.map ?_ _) start
      split
      · exact (accounts_declarator stop type t rest).map _
      · exact accounts_of_readsList (readsList_declarators stop type) rest_length_lt
          (accounts_declarator stop type) t rest

/-- What is left behind further targets is what the tokens end with. -/
theorem suffix_furtherTargets (last : Token) (ts : List Token) :
    (furtherTargets last ts).last :: (furtherTargets last ts).rest <:+ last :: ts := by
  fun_induction furtherTargets last ts with
  | case1 => exact List.suffix_rfl
  | case2 => exact List.suffix_rfl
  | case3 last t equal rest hkinds more ih =>
    exact ih.trans ((List.suffix_cons t _).trans (List.suffix_cons last _))
  | case4 => exact List.suffix_rfl

theorem accounts_assignment (stop last : Token) (ts : List Token) :
    Accounts stop (last :: ts) (outcome (assignment stop last ts)) := by
  rw [outcome_assignment]
  refine (Accounts.expect stop last _ _ ts).bind fun first _ => ?_
  refine (Accounts.expect stop first.last _ _ first.rest).bind fun equal _ => ?_
  refine Accounts.mono ?_ (suffix_furtherTargets equal.last equal.rest)
  exact Accounts.behind ((accounts_expression stop _).map _) _

theorem accounts_output (stop start : Token) (ts : List Token) :
    Accounts stop (start :: ts) (outcome (output stop start ts)) := by
  rw [outcome_output]
  refine (Accounts.expect stop start _ _ ts).bind fun colon _ => Accounts.map ?_ _
  exact accounts_of_readsList (readsList_outputValues stop) rest_length_lt
    (fun last ts => (accounts_expression stop ts).behind last) colon.last colon.rest

theorem accounts_inputTarget (stop last : Token) (ts : List Token) :
    Accounts stop (last :: ts) (inputTarget stop last ts) :=
  (Accounts.expect stop last _ _ ts).map _

theorem accounts_input (stop start : Token) (ts : List Token) :
    Accounts stop (start :: ts) (outcome (input stop start ts)) := by
  rw [outcome_input]
  refine (Accounts.expect stop start _ _ ts).bind fun colon _ => Accounts.map ?_ _
  exact accounts_of_readsList (readsList_inputTargets stop) rest_length_lt_of_inputTarget
    (accounts_inputTarget stop) colon.last colon.rest

theorem accounts_loopIncrement (stop last : Token) (ts : List Token) :
    Accounts stop (last :: ts) (outcome (loopIncrement stop last ts)) := by
  by_cases hincrement : ∃ t rest, ts = t :: rest ∧ t.kind = .identifier ∧
      front? rest = some (.symbol .increment)
  · obtain ⟨t, us, rfl, ht, hf⟩ := hincrement
    obtain ⟨operator, rest, rfl, ho⟩ := exists_cons_of_front? hf
    rw [outcome_loopIncrement_of_increment stop last ht ho]
    exact ((Accounts.of_ok _ operator rest).behind t).behind last
  · rw [outcome_loopIncrement_of_ne (front?_ne_of_not_exists hincrement)]
    exact accounts_assignment stop last ts

theorem accounts_loopInitializer (stop last : Token) (ts : List Token) :
    Accounts stop (last :: ts) (outcome (loopInitializer stop last ts)) := by
  rw [outcome_loopInitializer]
  split
  · rename_i start hstart
    obtain ⟨t, rest, rfl, -, rfl⟩ := accepted_eq_some_iff.1 hstart
    exact (accounts_declaration true stop t rest).behind last
  · split
    · exact (accounts_assignment stop last ts).map _
    · exact .blames ((next_mem stop ts).imp_left (List.mem_cons_of_mem last)) rfl

theorem accounts_loopHeader (stop last : Token) (ts : List Token) :
    Accounts stop (last :: ts) (outcome (loopHeader stop last ts)) := by
  rw [outcome_loopHeader]
  refine (Accounts.expect stop last _ _ ts).bind fun start _ => ?_
  refine (accounts_loopInitializer stop start.last start.rest).bind fun init _ => ?_
  refine (Accounts.expect stop init.last _ _ init.rest).bind fun comma _ => ?_
  refine ((accounts_expression stop comma.rest).behind comma.last).bind fun condition _ => ?_
  refine (Accounts.expect stop condition.last _ _ condition.rest).bind fun comma' _ => ?_
  refine (accounts_loopIncrement stop comma'.last comma'.rest).bind fun increment _ => ?_
  exact (Accounts.expect stop increment.last _ _ increment.rest).map _

mutual

/-- A statement is only read where there are tokens, so that one is never found missing. -/
theorem accounts_statement (stop last t : Token) (rest : List Token) :
    Accounts stop (last :: t :: rest) (outcome (statement stop last (t :: rest))) := by
  rw [outcome_statement_cons]
  unfold statementAt
  split
  · exact (accounts_declaration false stop t rest).behind last
  · exact (accounts_assignment stop last (t :: rest)).map _
  · exact (accounts_output stop t rest).behind last
  · exact (accounts_input stop t rest).behind last
  · exact (accounts_conditional stop t rest).behind last
  · exact (accounts_loop stop t rest).behind last
  · exact .blames (.inl (by simp)) ‹_›
  · exact .blames (.inl (by simp)) ‹_›
  · exact .blames (.inl (by simp)) rfl
termination_by 4 * (rest.length + 1) + 2
decreasing_by all_goals omega

theorem accounts_conditional (stop start : Token) (ts : List Token) :
    Accounts stop (start :: ts) (outcome (conditional stop start ts)) := by
  rw [outcome_conditional]
  refine ((accounts_branch stop .kung ts).behind start).bind fun first hfirst => ?_
  refine (accounts_branches stop first.last first.rest).bind fun others hothers => ?_
  split
  · exact .of_ok _ others.last others.rest
  · rename_i word hword
    obtain ⟨t, rest, hrest, -, rfl⟩ := accepted_eq_some_iff.1 hword
    rw [hrest]
    exact ((accounts_block stop .kungWala t rest).map _).behind others.last
termination_by 4 * ts.length + 2
decreasing_by
  · omega
  · have := rest_length_lt hfirst
    omega
  · have := rest_length_lt hfirst
    have := rest_length_lt hothers
    simp only [hrest, List.length_cons] at this
    omega

theorem accounts_branches (stop last : Token) (ts : List Token) :
    Accounts stop (last :: ts) (outcome (branches stop last ts)) := by
  rw [outcome_branches]
  split
  · exact .of_ok _ last ts
  · rename_i word hword
    obtain ⟨t, rest, rfl, -, rfl⟩ := accepted_eq_some_iff.1 hword
    refine Accounts.behind (Accounts.behind ?_ t) last
    refine (accounts_branch stop .kungDili rest).bind fun first hfirst => ?_
    exact (accounts_branches stop first.last first.rest).map _
termination_by 4 * ts.length
decreasing_by
  · subst_vars
    simp only [List.length_cons]
    omega
  · have := rest_length_lt hfirst
    subst_vars
    simp only [List.length_cons] at this ⊢
    omega

theorem accounts_branch (stop : Token) (owner : Owner) (ts : List Token) :
    Accounts stop ts (outcome (branch stop owner ts)) := by
  rw [outcome_branch]
  split
  · refine (accounts_expression stop ts).bind fun condition hcondition => ?_
    exact (accounts_block stop owner condition.last condition.rest).map _
  · exact .blames (next_mem stop ts) trivial
termination_by 4 * ts.length + 1
decreasing_by
  have := rest_length_lt hcondition
  omega

theorem accounts_loop (stop start : Token) (ts : List Token) :
    Accounts stop (start :: ts) (outcome (loop stop start ts)) := by
  rw [outcome_loop]
  refine (Accounts.expect stop start _ _ ts).bind fun word hword => ?_
  refine (accounts_loopHeader stop word.last word.rest).bind fun header hheader => ?_
  exact (accounts_block stop .alangSa header.last header.rest).map _
termination_by 4 * ts.length + 2
decreasing_by
  have := rest_length_lt hword
  have := rest_length_lt hheader
  omega

theorem accounts_block (stop : Token) (owner : Owner) (last : Token) (ts : List Token) :
    Accounts stop (last :: ts) (outcome (block stop owner last ts)) := by
  rw [outcome_block]
  refine (Accounts.expect stop last _ _ ts).bind fun word hword => ?_
  refine (Accounts.expect stop word.last _ _ word.rest).bind fun opening hopening => ?_
  refine (accounts_statements stop opening.last opening.rest).bind fun body _ => ?_
  exact (Accounts.expect stop body.last _ _ body.rest).map _
termination_by 4 * ts.length
decreasing_by
  have := rest_length_lt hword
  have := rest_length_lt hopening
  omega

/-- Statements are read or refused on one of their tokens. -/
theorem accounts_statements (stop last : Token) (ts : List Token) :
    Accounts stop (last :: ts) (outcome (statements stop last ts)) := by
  by_cases hend : AtEnd ts
  · rw [outcome_statements_of_atEnd hend]
    exact .of_ok [] last ts
  · rw [outcome_statements_of_not_atEnd hend]
    cases ts with
    | nil => exact absurd (.inl rfl) hend
    | cons t rest =>
      refine (accounts_statement stop last t rest).bind fun first hfirst => ?_
      exact (accounts_statements stop first.last first.rest).map _
termination_by 4 * ts.length + 3
decreasing_by
  · subst_vars
    simp only [List.length_cons]
    omega
  · have := rest_length_lt hfirst
    subst_vars
    omega

end

end Parse

namespace Program

open Parse

/-- The body of a program is read or refused, on one of its tokens or at its end. -/
theorem accounts_body (start stop : Token) (ts : List Token) :
    Accounts stop (start :: ts) (body start stop ts) := by
  unfold body
  refine (accounts_statements stop start ts).bind fun q _ => ?_
  split
  · rename_i t rest hrest
    exact .blames (.inl (by simp [hrest])) rfl
  · rename_i hrest
    split
    · exact .of_ok q.value q.last q.rest
    · rw [hrest]
      exact .of_error (refusal_unmet stop q.last .programEnd [])

/-- Tokens that end with the end of the source and are no program are refused, up to some of them
that is the stop. -/
theorem exists_refusal_of_ofTokens_eq_error {ts : List Token} {d : Diagnostic}
    (hts : Terminated ts) (h : ofTokens ts = .error d) :
    ∃ before stop after, ts = before ++ stop :: after ∧ Refusal stop before d := by
  obtain ⟨us, last, rfl, hlast, hus⟩ := hts
  cases us with
  | nil =>
    refine ⟨[], last, [], rfl, ?_⟩
    rw [List.nil_append, ofTokens, if_neg (by simp [hlast]), if_pos hlast] at h
    cases h
    exact .blamed (.inr rfl) (.inr ⟨rfl, hlast⟩)
  | cons start rest =>
    rw [List.cons_append] at h
    by_cases hs : start.kind = .keyword .sugod
    · obtain ⟨body', stop, after, hrest, hstop, hbody⟩ :=
        exists_body ⟨last, List.mem_append_right rest List.mem_cons_self, by simp [endsBody, hlast]⟩
      rw [hrest, ofTokens_eq_body hs hstop hbody] at h
      refine ⟨start :: body', stop, after, by rw [List.cons_append, hrest, List.cons_append], ?_⟩
      cases hr : body start stop body' with
      | error d' =>
        rw [hr] at h
        cases h
        exact (accounts_body start stop body').error _ hr
      | ok q =>
        rw [hr] at h
        cases h
    · refine ⟨[], start, rest ++ [last], rfl, ?_⟩
      rw [ofTokens, if_neg hs] at h
      split at h
      · cases h
        exact .blamed (.inr rfl) (.inr ⟨rfl, ‹_›⟩)
      · cases h
        exact .blamed (.inr rfl) (.inl rfl)

end Program

namespace Token

open String (utf8Len)

/-- The scan fails at a piece of the text and on the line where it stopped. -/
theorem scan_eq_error {p : Position} {cs : List Char} {d : Diagnostic} (h : scan p cs = .error d) :
    ∃ before piece after fault, cs = before ++ (piece ++ after) ∧
      d = ⟨.lexical fault, ⟨⟨(p.after before).byte, (p.after (before ++ piece)).byte⟩,
        (p.after (before ++ piece)).line⟩⟩ := by
  fun_induction scan p cs with
  | case1 => cases h
  | case2 p c rest piece q hfront ih =>
    obtain ⟨before, refused, after, fault, hsplit, rfl⟩ := ih h
    refine ⟨c :: rest.take piece.more ++ before, refused, after, fault, ?_, ?_⟩
    · rw [List.append_assoc, ← hsplit, List.cons_append, List.take_append_drop]
    · simp only [List.append_assoc, Position.after_append, q]
  | case3 p c rest piece q fault hfront =>
    cases h
    exact ⟨[], c :: rest.take piece.more, rest.drop piece.more, fault, by simp, rfl⟩
  | case4 => cases h
  | case5 p c rest piece q kind lexeme hfront d' hrest ih =>
    cases h
    obtain ⟨before, refused, after, fault, hsplit, rfl⟩ := ih hrest
    refine ⟨c :: rest.take piece.more ++ before, refused, after, fault, ?_, ?_⟩
    · rw [List.append_assoc, ← hsplit, List.cons_append, List.take_append_drop]
    · simp only [List.append_assoc, Position.after_append, q]

/-- The tokens of a source text have its end at their end and nowhere else. -/
theorem terminated_of_ofSource {source : String} {ts : List Token} (h : ofSource source = .ok ts) :
    Program.Terminated ts := by
  obtain ⟨us, rfl, hus⟩ := (tiles_of_ofSource h).ends
  exact ⟨us, _, rfl, rfl, fun t ht => (hus t ht).1⟩

end Token

/-- A source text is refused at a piece of it that is no token, or for its tokens. -/
theorem Program.ofSource_eq_error {source : String} {d : Diagnostic}
    (h : ofSource source = .error d) :
    (∃ before piece after fault, source.toList = before ++ (piece ++ after) ∧
      d = ⟨.lexical fault, ⟨⟨String.utf8Len before, String.utf8Len (before ++ piece)⟩,
        1 + (before ++ piece).count '\n'⟩⟩) ∨
      ∃ before stop after, Token.ofSource source = .ok (before ++ stop :: after) ∧
        Parse.Refusal stop before d := by
  cases hts : Token.ofSource source with
  | error d' =>
    rw [Program.ofSource, hts] at h
    cases h
    left
    obtain ⟨before, piece, after, fault, hsplit, rfl⟩ := scan_eq_error (ofSource_eq_error_iff.1 hts)
    exact ⟨before, piece, after, fault, hsplit, by simp only [Position.start_after]⟩
  | ok ts =>
    rw [Program.ofSource, hts] at h
    obtain ⟨before, stop, after, rfl, hrefusal⟩ :=
      exists_refusal_of_ofTokens_eq_error (terminated_of_ofSource hts) h
    exact .inr ⟨before, stop, after, rfl, hrefusal⟩

end BisayaPlus
