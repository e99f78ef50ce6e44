import BisayaPlus.Program.Statement
import BisayaPlus.Proofs.Outcome.SimpleStatement
import Mathlib.Data.List.TakeWhile

/-!
The outcomes of the readers of statements, blocks and programs.
-/

namespace BisayaPlus

namespace Parse

open Token

def statementAt (stop last t : Token) (rest : List Token) : Except Diagnostic (Reading Stmt) :=
  match t.kind with
  | .keyword .mugna => outcome (declaration false stop t rest)
  | .identifier =>
    outcome (assignment stop last (t :: rest)) >>= fun a =>
      .ok ⟨.assignment a.value, a.last, a.rest⟩
  | .keyword .ipakita => outcome (output stop t rest)
  | .keyword .dawat => outcome (input stop t rest)
  | .keyword .kung => outcome (conditional stop t rest)
  | .keyword .alang => outcome (loop stop t rest)
  | .keyword .kungDili => .error (blame (.strayClause .kungDili) t)
  | .keyword .kungWala => .error (blame (.strayClause .kungWala) t)
  | _ => .error (blame (.notStatement t.lexeme) t)

theorem outcome_statement_nil (stop last : Token) :
    outcome (statement stop last []) = .error (blame .missingStatement stop) := by
  rw [statement]
  rfl

theorem outcome_statement_cons (stop last t : Token) (rest : List Token) :
    outcome (statement stop last (t :: rest)) = statementAt stop last t rest := by
  rw [statement.eq_def]
  dsimp only [statementAt]
  cases t.kind with
  | keyword k => cases k <;> first | rfl | exact outcome_weaken _ _
  | identifier => exact outcome_bind fun a => rfl
  | _ => rfl

/-- A conditional has a first branch, any further ones, and perhaps a last alternative. -/
theorem outcome_conditional (stop start : Token) (ts : List Token) :
    outcome (conditional stop start ts) =
      outcome (branch stop .kung ts) >>= fun first =>
        outcome (branches stop first.last first.rest) >>= fun others =>
        match accepted (.keyword .kungWala) others.rest with
        | none =>
          .ok ⟨.conditional first.value others.value none (start.span.join others.last.span),
            others.last, others.rest⟩
        | some word =>
          outcome (block stop .kungWala word.last word.rest) >>= fun otherwise =>
            .ok ⟨.conditional first.value others.value (some otherwise.value)
              (start.span.join otherwise.last.span), otherwise.last, otherwise.rest⟩ := by
  rw [conditional]
  apply outcome_bind
  intro first
  apply outcome_bind
  intro others
  dsimp only [accepted, Parsed.reading]
  cases accept (.keyword .kungWala) others.rest with
  | none => rfl
  | some word => exact outcome_bind fun otherwise => rfl

theorem outcome_branches (stop last : Token) (ts : List Token) :
    outcome (branches stop last ts) =
      match accepted (.keyword .kungDili) ts with
      | none => .ok ⟨[], last, ts⟩
      | some word =>
        outcome (branch stop .kungDili word.rest) >>= fun first =>
          outcome (branches stop first.last first.rest) >>= fun others =>
            .ok ⟨first.value :: others.value, others.last, others.rest⟩ := by
  rw [branches]
  unfold accepted
  cases accept (.keyword .kungDili) ts with
  | none => rfl
  | some word =>
    apply outcome_bind
    intro first
    exact outcome_bind fun others => rfl

/-- A branch has a condition that begins with a parenthesis, and a block. -/
theorem outcome_branch (stop : Token) (owner : Owner) (ts : List Token) :
    outcome (branch stop owner ts) =
      if front? ts = some (.symbol .leftParen) then
        outcome (expression stop ts) >>= fun condition =>
          outcome (block stop owner condition.last condition.rest) >>= fun body =>
            .ok ⟨.mk condition.value body.value, body.last, body.rest⟩
      else
        .error (blame (.bareCondition owner) (next stop ts)) := by
  rw [branch]
  by_cases h : front? ts = some (.symbol .leftParen)
  · simp only [(atSymbol_eq_true_iff .leftParen ts).2 h]
    rw [if_pos h]
    apply outcome_bind
    intro condition
    exact outcome_bind fun body => rfl
  · have hat : atSymbol .leftParen ts = false :=
      Bool.eq_false_iff.2 fun ht => h ((atSymbol_eq_true_iff .leftParen ts).1 ht)
    simp only [hat]
    rw [if_neg h]
    rfl

theorem outcome_loop (stop start : Token) (ts : List Token) :
    outcome (loop stop start ts) =
      outcome (expect stop (.keyword .sa) .loopWord start ts) >>= fun word =>
        outcome (loopHeader stop word.last word.rest) >>= fun header =>
        outcome (block stop .alangSa header.last header.rest) >>= fun body =>
          .ok ⟨.loop header.value.initializer header.value.condition header.value.increment
            body.value (start.span.join body.value.span), body.last, body.rest⟩ := by
  rw [loop]
  apply outcome_bind
  intro word
  apply outcome_bind
  intro header
  exact outcome_bind fun body => rfl

/-- A block has its statements between braces, behind its keyword. -/
theorem outcome_block (stop : Token) (owner : Owner) (last : Token) (ts : List Token) :
    outcome (block stop owner last ts) =
      outcome (expect stop (.keyword .pundok) (.blockWord owner) last ts) >>= fun word =>
        outcome (expect stop (.symbol .leftBrace) .blockStart word.last word.rest) >>= fun start =>
        outcome (statements stop start.last start.rest) >>= fun body =>
        outcome (expect stop (.symbol .rightBrace) (.blockEnd owner) body.last
          body.rest) >>= fun close =>
        .ok ⟨.mk body.value (word.value.span.join close.value.span), close.last, close.rest⟩ := by
  rw [block]
  apply outcome_bind
  intro word
  apply outcome_bind
  intro start
  apply outcome_bind
  intro body
  exact outcome_bind fun close => rfl

def AtEnd (ts : List Token) : Prop :=
  ts = [] ∨ front? ts = some (.symbol .rightBrace)

theorem outcome_statements_of_atEnd {stop last : Token} {ts : List Token} (h : AtEnd ts) :
    outcome (statements stop last ts) = .ok ⟨[], last, ts⟩ := by
  have hend : (ts.isEmpty || atSymbol .rightBrace ts) = true := by
    rcases h with rfl | hf
    · rfl
    · simp [(atSymbol_eq_true_iff .rightBrace ts).2 hf]
  rw [statements]
  rw [if_pos hend]
  rfl

theorem outcome_statements_of_not_atEnd {stop last : Token} {ts : List Token} (h : ¬AtEnd ts) :
    outcome (statements stop last ts) =
      outcome (statement stop last ts) >>= fun first =>
        outcome (statements stop first.last first.rest) >>= fun others =>
          .ok ⟨first.value :: others.value, others.last, others.rest⟩ := by
  have hend : ¬(ts.isEmpty || atSymbol .rightBrace ts) = true := by
    intro ht
    rcases Bool.or_eq_true_iff.1 ht with he | hb
    · exact h (.inl (List.isEmpty_iff.1 he))
    · exact h (.inr ((atSymbol_eq_true_iff .rightBrace ts).1 hb))
  rw [statements, if_neg hend]
  apply outcome_bind
  intro first
  exact outcome_bind fun others => rfl

end Parse

namespace Program

open Parse

/-- A program with a last keyword is its body, this keyword, and a rest that is not read. -/
theorem takeWhile_append_bodyEnd {start : Token} {ts : List Token}
    (h : (bodyEnd start ts).kind = .keyword .katapusan) :
    ∃ rest, ts = ts.takeWhile (!endsBody ·) ++ bodyEnd start ts :: rest := by
  induction ts generalizing start with
  | nil => cases h
  | cons t us ih =>
    cases ht : endsBody t with
    | true => exact ⟨us, by simp [bodyEnd, ht]⟩
    | false =>
      have hend : bodyEnd start (t :: us) = bodyEnd t us := by simp [bodyEnd, ht]
      rw [hend] at h ⊢
      obtain ⟨rest, hrest⟩ := ih h
      exact ⟨rest, by simpa [ht] using hrest⟩

/-- The body of a program ends at the first token that can end it. -/
theorem bodyEnd_append (start : Token) {close : Token} {body : List Token} (rest : List Token)
    (hb : ∀ t ∈ body, endsBody t = false) (hc : endsBody close = true) :
    bodyEnd start (body ++ close :: rest) = close ∧
      (body ++ close :: rest).takeWhile (!endsBody ·) = body := by
  induction body generalizing start with
  | nil => simp [bodyEnd, hc]
  | cons t us ih =>
    have ht := hb t List.mem_cons_self
    obtain ⟨he, htake⟩ := ih t fun u hu => hb u (List.mem_cons_of_mem t hu)
    exact ⟨by simpa [bodyEnd, ht] using he, by simpa [ht] using htake⟩

/-- A program is read if its body is, up to the token that closes it. -/
theorem ofTokens_eq_ok_iff {ts : List Token} {p : Program} :
    ofTokens ts = .ok p ↔ ∃ start body close rest last,
      ts = start :: (body ++ close :: rest) ∧ start.kind = .keyword .sugod ∧
      close.kind = .keyword .katapusan ∧ (∀ t ∈ body, endsBody t = false) ∧
      outcome (Parse.statements close start body) = .ok ⟨p.statements, last, []⟩ := by
  constructor
  · intro h
    unfold ofTokens at h
    split at h
    · cases h
    split at h
    · rename_i start us hs
      unfold afterStart at h
      obtain ⟨body, hbody, h⟩ := Except.bind_eq_ok_iff.1 h
      split at h
      · cases h
      split at h
      · rename_i hrest hk
        cases h
        obtain ⟨rest, hus⟩ := takeWhile_append_bodyEnd hk
        refine ⟨start, _, _, rest, body.last, congrArg (start :: ·) hus, hs, hk, ?_, ?_⟩
        · intro t ht
          simpa using List.mem_takeWhile_imp ht
        · rw [hbody, ← hrest]
          rfl
      · cases h
    · split at h <;> cases h
  · rintro ⟨start, body, close, rest, last, rfl, hs, hc, hb, h⟩
    have hclose : endsBody close = true := by simp [endsBody, hc]
    obtain ⟨hend, htake⟩ := bodyEnd_append start rest hb hclose
    rw [ofTokens, if_pos hs]
    unfold afterStart
    simp only [hend]
    generalize (body ++ close :: rest).takeWhile (!endsBody ·) = us at htake
    subst htake
    cases hr : Parse.statements close start us with
    | error d =>
      rw [hr] at h
      cases h
    | ok q =>
      rw [hr] at h
      obtain ⟨ss, last', vs, hlt⟩ := q
      cases h
      simp only [bind, Except.bind, hc, if_true]
      rfl

end Program

end BisayaPlus
