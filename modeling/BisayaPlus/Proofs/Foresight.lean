import BisayaPlus.Proofs.ErrorDetection

/-!
What a reader does with some tokens it also does with whatever they begin, unless it is due to the
end of the source behind them. There it blames that end, with two exceptions: if the type of a
declaration or an initial value is missing, it blames the token in front of the end.
-/

namespace BisayaPlus

open Token Parse

/-- A token that is blamed because the source ends where a type or an initial value belongs. -/
inductive Overrun (t : Token) : Diagnostic → Prop
  | dataType (ht : t.kind = .keyword .mugna) : Overrun t (blame (.notDataType t.lexeme) t)
  | initialValue (ht : t.kind = .symbol .equal ∨ t.kind = .symbol .minus ∨ t.kind = .symbol .plus) :
    Overrun t (notLiteral t)

/-- A diagnostic on some tokens with the end of the source behind them, which is due to that end. -/
def Late (stop : Token) (ts : List Token) (d : Diagnostic) : Prop :=
  d.mark.line = stop.line ∨ ∃ us t, ts = us ++ [t] ∧ Overrun t d

/-- What is due to the end of the source is so behind further tokens. -/
theorem Late.append {stop : Token} {ts : List Token} {d : Diagnostic} (h : Late stop ts d)
    (before : List Token) : Late stop (before ++ ts) d := by
  rcases h with hline | ⟨us, t, rfl, ht⟩
  · exact .inl hline
  · exact .inr ⟨before ++ us, t, (List.append_assoc _ _ _).symm, ht⟩

theorem Parse.line_unmet_nil (stop last : Token) (what : Expectation) :
    (unmet stop last what []).mark.line = stop.line := by
  rw [unmet]
  split <;> rfl

/-- What a reader does with some tokens behind others, unless it is due to the stop, it does with
whatever these tokens begin. -/
structure Foretells {α : Type} (before : List Token) (read : Reader α) (stop : Token)
    (ts : List Token) : Prop where
  ok : ∀ q, read stop ts = .ok q → ∃ taken, ts = taken ++ q.rest ∧ (q.rest ≠ [] →
    ∀ stop' us, read stop' (ts ++ us) = .ok ⟨q.value, q.last, q.rest ++ us⟩)
  error : ∀ d, read stop ts = .error d → Late stop (before ++ ts) d ∨
    ts ≠ [] ∧ ∀ stop' us, ∃ d', read stop' (ts ++ us) = .error d'

namespace Foretells

variable {α β : Type} {read read' : Reader α} {stop last t : Token}
  {before ts rest : List Token}

/-- A reader that goes to the end. -/
theorem finish (v : α) (last : Token) (h : read stop ts = .ok ⟨v, last, []⟩) :
    Foretells before read stop ts where
  ok q hq := by
    rw [h] at hq
    cases hq
    exact ⟨ts, by simp, fun hne => absurd rfl hne⟩
  error d hd := by
    rw [h] at hd
    cases hd

/-- A reader that fails because of the stop. -/
theorem late {d : Diagnostic} (h : read stop ts = .error d) (hlate : Late stop (before ++ ts) d) :
    Foretells before read stop ts where
  ok q hq := by
    rw [h] at hq
    cases hq
  error d' hd' := by
    rw [h] at hd'
    cases hd'
    exact .inl hlate

/-- A reader that blames the stop. -/
theorem blames_stop {d : Diagnostic} (h : read stop ts = .error d)
    (hline : d.mark.line = stop.line) : Foretells before read stop ts :=
  late h (.inl hline)

/-- A reader that fails whatever comes. -/
theorem fails (hts : ts ≠ []) (h : ∀ stop' us, ∃ d, read stop' (ts ++ us) = .error d) :
    Foretells before read stop ts where
  ok q hq := by
    obtain ⟨d, hd⟩ := h stop []
    rw [List.append_nil, hq] at hd
    cases hd
  error _ _ := .inr ⟨hts, h⟩

/-- A reader that takes no tokens whatever comes. -/
theorem stay (v : α) (last : Token)
    (h : ∀ stop' us, read stop' (ts ++ us) = .ok ⟨v, last, ts ++ us⟩) :
    Foretells before read stop ts := by
  have hread : read stop ts = .ok ⟨v, last, ts⟩ := by simpa using h stop []
  constructor
  · intro q hq
    rw [hread] at hq
    cases hq
    exact ⟨[], rfl, fun _ => h⟩
  · intro d hd
    rw [hread] at hd
    cases hd

theorem append (h : Foretells before read stop ts) (first : List Token) :
    Foretells (first ++ before) read stop ts where
  ok := h.ok
  error d hd := by
    rcases h.error d hd with hlate | hmore
    · exact .inl (List.append_assoc first before ts ▸ hlate.append first)
    · exact .inr hmore

theorem of_nil (h : Foretells [] read stop ts) : Foretells before read stop ts := by
  simpa using h.append before

/-- Two readers that agree on these tokens and on whatever they begin. -/
theorem congr (h : Foretells before read stop ts) (heq : read' stop ts = read stop ts)
    (hmore : ts ≠ [] → ∀ stop' us, read' stop' (ts ++ us) = read stop' (ts ++ us)) :
    Foretells before read' stop ts where
  ok q hq := by
    obtain ⟨c, hts, hstable⟩ := h.ok q (heq ▸ hq)
    refine ⟨c, hts, fun hne stop' us => ?_⟩
    have hts' : ts ≠ [] := by
      rintro rfl
      exact hne (List.append_eq_nil_iff.1 hts.symm).2
    rw [hmore hts']
    exact hstable hne stop' us
  error d hd := by
    rcases h.error d (heq ▸ hd) with hlate | ⟨hts, hfail⟩
    · exact .inl hlate
    · refine .inr ⟨hts, fun stop' us => ?_⟩
      rw [hmore hts]
      exact hfail stop' us

/-- After a token, the rest is read. -/
theorem cons {sub : Reader α} (h : Foretells (before ++ [t]) sub stop rest)
    (heq : ∀ stop' us, read stop' (t :: (rest ++ us)) = sub stop' (rest ++ us)) :
    Foretells before read stop (t :: rest) := by
  have hread : read stop (t :: rest) = sub stop rest := by simpa using heq stop []
  constructor
  · intro q hq
    obtain ⟨c, hrest, hstable⟩ := h.ok q (hread ▸ hq)
    refine ⟨t :: c, by rw [List.cons_append, ← hrest], fun hne stop' us => ?_⟩
    rw [List.cons_append, heq]
    exact hstable hne stop' us
  · intro d hd
    rcases h.error d (hread ▸ hd) with hlate | ⟨-, hfail⟩
    · rw [List.append_assoc] at hlate
      exact .inl hlate
    · refine .inr ⟨List.cons_ne_nil t rest, fun stop' us => ?_⟩
      rw [List.cons_append, heq]
      exact hfail stop' us

theorem lead (h : Foretells (before ++ [t]) (fun stop' ts' => read stop' (t :: ts')) stop rest) :
    Foretells before read stop (t :: rest) :=
  cons h fun _ _ => rfl

/-- One reader and then another that goes on behind it. -/
theorem bind {x : Reader β} {f : Token → Reading β → Except Diagnostic (Reading α)}
    (hx : Foretells before x stop ts)
    (hf : ∀ q c, x stop ts = .ok q → ts = c ++ q.rest →
      Foretells (before ++ c) (fun stop' ts' => f stop' ⟨q.value, q.last, ts'⟩) stop q.rest) :
    Foretells before (fun stop' ts' => x stop' ts' >>= f stop') stop ts := by
  cases hr : x stop ts with
  | error d =>
    constructor
    · intro q hq
      rw [hr] at hq
      cases hq
    · intro d' hd'
      rw [hr] at hd'
      cases hd'
      rcases hx.error d hr with hlate | ⟨hts, hfail⟩
      · exact .inl hlate
      · refine .inr ⟨hts, fun stop' us => ?_⟩
        obtain ⟨d', hd'⟩ := hfail stop' us
        exact ⟨d', by rw [hd']; rfl⟩
  | ok q =>
    obtain ⟨c, hts, hstable⟩ := hx.ok q hr
    obtain ⟨hok, herror⟩ := hf q c hr hts
    have hmore : q.rest ≠ [] → ∀ stop' us, (x stop' (ts ++ us) >>= f stop') =
        f stop' ⟨q.value, q.last, q.rest ++ us⟩ := fun hne stop' us => by
      rw [hstable hne stop' us]
      rfl
    constructor
    · intro p hp
      rw [hr] at hp
      obtain ⟨c', hrest, hstable'⟩ := hok p hp
      refine ⟨c ++ c', by rw [List.append_assoc, ← hrest, ← hts], fun hne stop' us => ?_⟩
      have hne' : q.rest ≠ [] := by
        rw [hrest]
        exact List.append_ne_nil_of_right_ne_nil c' hne
      rw [hmore hne']
      exact hstable' hne stop' us
    · intro d hd
      rw [hr] at hd
      rcases herror d hd with hlate | ⟨hne, hfail⟩
      · rw [List.append_assoc, ← hts] at hlate
        exact .inl hlate
      · refine .inr ⟨?_, fun stop' us => ?_⟩
        · rw [hts]
          exact List.append_ne_nil_of_right_ne_nil c hne
        · rw [hmore hne]
          exact hfail stop' us

/-- One reader and then another that needs to know nothing of what comes before it. -/
theorem seq {x : Reader β} {f : Token → Reading β → Except Diagnostic (Reading α)}
    (hx : Foretells before x stop ts)
    (hf : ∀ q, x stop ts = .ok q →
      Foretells [] (fun stop' ts' => f stop' ⟨q.value, q.last, ts'⟩) stop q.rest) :
    Foretells before (fun stop' ts' => x stop' ts' >>= f stop') stop ts :=
  hx.bind fun q _ hq _ => (hf q hq).of_nil

/-- The value of a reader may be turned into another. -/
theorem map {x : Reader β} {g : Reading β → α} (hx : Foretells before x stop ts)
    (hg : ∀ v last rest rest', g ⟨v, last, rest⟩ = g ⟨v, last, rest'⟩) :
    Foretells before (fun stop' ts' => x stop' ts' >>= fun q => .ok ⟨g q, q.last, q.rest⟩) stop
      ts := by
  refine hx.seq fun q _ => ?_
  refine stay (g q) q.last fun stop' us => ?_
  rw [hg q.value q.last (q.rest ++ us) q.rest]

/-- One token is read, and what it gives depends on no other. -/
theorem single {x : Except Diagnostic α}
    (h : ∀ stop' us, read stop' (t :: (rest ++ us)) = x >>= fun v => .ok ⟨v, t, rest ++ us⟩) :
    Foretells before read stop (t :: rest) := by
  cases x with
  | ok v =>
    have hstay : Foretells (before ++ [t]) (fun _ ts => .ok ⟨v, t, ts⟩) stop rest :=
      .stay v t fun _ _ => rfl
    exact cons hstay h
  | error d => exact fails (List.cons_ne_nil t rest) fun stop' us => ⟨d, h stop' us⟩

/-- Whether a token is of the wanted kind is known when it is there. -/
theorem expect (stop last : Token) (kind : Token.Kind) (what : Expectation) (ts : List Token) :
    Foretells before (fun stop ts => outcome (Parse.expect stop kind what last ts)) stop ts := by
  cases ts with
  | nil =>
    exact blames_stop (d := unmet stop last what []) rfl (line_unmet_nil ..)
  | cons t rest =>
    by_cases hk : t.kind = kind
    · exact single (x := .ok t) fun _ _ => outcome_expect_of_eq hk
    · refine fails (List.cons_ne_nil t rest) fun stop' us =>
        ⟨unmet stop' last what (t :: (rest ++ us)), ?_⟩
      simp only [List.cons_append, Parse.expect, hk, if_false]
      rfl

/-- A token of a kind and then something else. -/
theorem expect_seq {kind : Token.Kind} {what : Expectation}
    {f : Token → Reading Token → Except Diagnostic (Reading α)}
    (hf : ∀ t rest, ts = t :: rest →
      Foretells [] (fun stop' ts' => f stop' ⟨t, t, ts'⟩) stop rest) :
    Foretells before (fun stop' ts' => outcome (Parse.expect stop' kind what last ts') >>= f stop')
      stop ts := by
  refine (expect stop last kind what ts).seq fun q hq => ?_
  obtain ⟨t, rest, hts, -, rfl⟩ := outcome_expect_eq_ok_iff.1 hq
  exact hf t rest hts

/-- Something that is read if it begins with a token of a kind. -/
theorem optional (kind : Token.Kind) (v : α) (last : Token)
    (hnone : ∀ stop' ts', front? ts' ≠ some kind → read stop' ts' = .ok ⟨v, last, ts'⟩)
    (hsome : ∀ t rest, t.kind = kind → ts = t :: rest → Foretells before read stop ts) :
    Foretells before read stop ts := by
  cases ts with
  | nil => exact finish v last (hnone stop [] (by simp))
  | cons t rest =>
    by_cases hk : t.kind = kind
    · exact hsome t rest hk rfl
    · exact stay v last fun stop' us => hnone stop' _ (by simpa using hk)

end Foretells

namespace Parse

variable {stop t : Token} {before ts rest : List Token}

/-- Whether an operand begins is known unless all that is there is a name. -/
theorem startsOperand_append (hne : rest ≠ []) (hname : ¬∃ x, rest = [x] ∧ x.kind = .identifier)
    (us : List Token) : startsOperand (rest ++ us) = startsOperand rest := by
  match rest with
  | [x] =>
    rw [List.singleton_append, startsOperand, startsOperand]
    cases hk : x.kind with
    | identifier => exact absurd ⟨x, rfl, hk⟩ hname
    | _ => rfl
  | x :: y :: others => rfl

theorem startsOperand_name {x : Token} (hx : x.kind = .identifier) : startsOperand [x] = true := by
  simp [startsOperand, hx, atSymbol]

/-- More tokens make no other unary operator, unless there were none or a single name. -/
theorem unaryOp?_append (hne : rest ≠ []) (hname : ¬∃ x, rest = [x] ∧ x.kind = .identifier)
    (us : List Token) : unaryOp? t (rest ++ us) = unaryOp? t rest := by
  rw [unaryOp?, unaryOp?, startsOperand_append hne hname us]

/-- A token that is no operator in front of a name is none in front of an assignment to it. -/
theorem unaryOp?_append_of_none (hne : rest ≠ []) (h : unaryOp? t rest = none) (us : List Token) :
    unaryOp? t (rest ++ us) = none := by
  by_cases hname : ∃ x, rest = [x] ∧ x.kind = .identifier
  · obtain ⟨x, rfl, hx⟩ := hname
    rw [unaryOp?, startsOperand_name hx] at h
    have hnot : ¬(t.kind = .boolean ∧ t.lexeme = Value.falseWord) := fun hfalse => by
      simp [hfalse.1, hfalse.2] at h
    rw [unaryOp?]
    split at h
    · cases h
    split at h
    · cases h
    rw [if_neg ‹_›, if_neg ‹_›, if_neg fun hfalse => hnot ⟨hfalse.1, hfalse.2.1⟩]
  · rw [unaryOp?_append hne hname, h]

theorem outcome_level_name {x : Token} (hx : x.kind = .identifier) (stop : Token)
    (levels : List (List BinaryOp)) :
    outcome (level stop levels [x]) = .ok ⟨.name x.lexeme x.mark, x, []⟩ := by
  induction levels with
  | nil =>
    have hop : unaryOp? x [] = none :=
      unaryOp?_eq_none_of_kind (by simp [hx]) (by simp [hx]) (by simp [hx]) []
    rw [outcome_level_nil, outcome_unary_of_none hop, outcome_primary]
    simp [literal?, hx]
  | cons ops tighter ih =>
    rw [outcome_level_cons, ih]
    exact outcome_levelTail_nil ..

/-- What is read behind an operator. If that is a name alone, nothing is left. -/
theorem foretells_require {α : Type} {read : Reader α} {operator : Token}
    (hname : ∀ x, x.kind = .identifier → ts = [x] → ∃ v last, read stop ts = .ok ⟨v, last, []⟩)
    (h : Foretells [] read stop ts) : Foretells before
      (fun stop ts => requireOperand stop operator ts >>= fun _ => read stop ts) stop ts := by
  by_cases hone : ∃ x, ts = [x] ∧ x.kind = .identifier
  · obtain ⟨x, hts, hx⟩ := hone
    obtain ⟨v, last, hv⟩ := hname x hx hts
    refine .finish v last ?_
    rw [requireOperand, hts, startsOperand_name hx, ← hts]
    exact hv
  by_cases hnil : ts = []
  · subst hnil
    exact .blames_stop (d := blame (.missingOperand operator.lexeme) stop) rfl rfl
  cases hs : startsOperand ts with
  | true =>
    refine h.of_nil.congr ?_ fun _ stop' us => ?_
    · rw [requireOperand, hs]
      rfl
    · rw [requireOperand, startsOperand_append hnil hone, hs]
      rfl
  | false =>
    refine .fails hnil fun stop' us =>
      ⟨blame (.missingOperand operator.lexeme) (next stop' (ts ++ us)), ?_⟩
    rw [requireOperand, startsOperand_append hnil hone, hs]
    rfl

/-- A token that is an operand by itself. -/
theorem foretells_atom {e : Expr} (hop : unaryOp? t rest = none)
    (hread : ∀ stop' rest', outcome (primary stop' t rest') = .ok ⟨e, t, rest'⟩) :
    Foretells [] (fun stop ts => outcome (unary stop ts)) stop (t :: rest) := by
  by_cases hrest : rest = []
  · subst hrest
    refine .finish e t ?_
    rw [outcome_unary_of_none hop, hread]
  · refine .single (x := .ok e) fun stop' us => ?_
    rw [outcome_unary_of_none (unaryOp?_append_of_none hrest hop us), hread]
    rfl

/-- A token that begins no operand. -/
theorem foretells_nonOperand {d : Diagnostic} (hop : unaryOp? t rest = none)
    (hread : ∀ stop' rest', outcome (primary stop' t rest') = .error d) (hb : t.kind ≠ .boolean) :
    Foretells [] (fun stop ts => outcome (unary stop ts)) stop (t :: rest) := by
  have hm : t.kind ≠ .symbol .minus := fun hk => by simp [unaryOp?, hk] at hop
  have hp : t.kind ≠ .symbol .plus := fun hk => by simp [unaryOp?, hk] at hop
  refine .fails (List.cons_ne_nil t rest) fun stop' us => ⟨d, ?_⟩
  rw [List.cons_append, outcome_unary_of_none (unaryOp?_eq_none_of_kind hm hp hb _), hread]

theorem foretells_parenthesised (ht : t.kind = .symbol .leftParen)
    (hin : Foretells [] (fun stop ts => outcome (level stop BinaryOp.levels ts)) stop rest) :
    Foretells [] (fun stop ts => outcome (unary stop ts)) stop (t :: rest) := by
  have hread : ∀ stop' rest', outcome (unary stop' (t :: rest')) = parenthesised stop' t rest' := by
    intro stop' rest'
    have hop : unaryOp? t rest' = none :=
      unaryOp?_eq_none_of_kind (by simp [ht]) (by simp [ht]) (by simp [ht]) rest'
    rw [outcome_unary_of_none hop, outcome_primary]
    simp [literal?, ht]
  suffices hrest : Foretells [t] (fun stop ts => parenthesised stop t ts) stop rest from
    .cons hrest fun _ _ => hread _ _
  cases rest with
  | nil => exact .blames_stop (d := noOperand stop) rfl (line_noOperand stop)
  | cons r others =>
    by_cases hr : r.kind = .symbol .rightParen
    · exact .fails (List.cons_ne_nil r others) fun stop' us => ⟨_, if_pos hr⟩
    · have hinner : Foretells [] (fun stop ts =>
          outcome (level stop BinaryOp.levels ts) >>= fun inner =>
            outcome (expect stop (.symbol .rightParen) .closingParenthesis inner.last
              inner.rest) >>= fun close => .ok ⟨inner.value, close.last, close.rest⟩) stop
          (r :: others) := by
        refine hin.seq fun q _ => ?_
        dsimp only
        exact .map (.expect stop q.last _ _ q.rest) fun _ _ _ _ => rfl
      exact hinner.of_nil.congr (if_neg hr) fun _ _ _ => if_neg hr

/-- An operand without a unary operator in front of it. -/
theorem foretells_operand (hop : unaryOp? t rest = none)
    (hin : Foretells [] (fun stop ts => outcome (level stop BinaryOp.levels ts)) stop rest) :
    Foretells [] (fun stop ts => outcome (unary stop ts)) stop (t :: rest) := by
  have hread := fun stop' rest' => outcome_primary stop' t rest'
  cases hl : literal? t with
  | some value =>
    simp only [hl] at hread
    cases value with
    | ok v => exact foretells_atom hop hread
    | error d => exact foretells_nonOperand hop hread (line_of_literal? hl).2
  | none =>
    simp only [hl] at hread
    cases hk : t.kind with
    | identifier =>
      simp only [hk] at hread
      exact foretells_atom hop hread
    | symbol s =>
      by_cases hs : s = .leftParen
      · exact foretells_parenthesised (hs ▸ hk) hin
      · cases htext : symbolText? s with
        | some text =>
          have hatom : ∀ stop' rest', outcome (primary stop' t rest') =
              .ok ⟨.literal (.text text) t.mark, t, rest'⟩ := fun stop' rest' => by
            rw [hread, hk]
            cases s <;> first | contradiction | (cases htext; rfl)
          exact foretells_atom hop hatom
        | none =>
          have hnot : ∀ stop' rest', outcome (primary stop' t rest') =
              .error (blame (.notExpression t.kind t.lexeme) t) := fun stop' rest' => by
            rw [hread, hk]
            cases s <;> first | contradiction | rfl
          exact foretells_nonOperand hop hnot (by simp [hk])
    | keyword w =>
      simp only [hk] at hread
      exact foretells_nonOperand hop hread (by simp [hk])
    | sourceEnd =>
      simp only [hk] at hread
      exact foretells_nonOperand hop hread (by simp [hk])
    | number | text | character | boolean => simp [literal?, hk] at hl

mutual

/-- Operands and operators of a level are read in the same way from a longer list. -/
theorem foretells_level (levels : List (List BinaryOp)) (stop : Token) (ts : List Token) :
    Foretells [] (fun stop ts => outcome (level stop levels ts)) stop ts := by
  cases levels with
  | nil =>
    simp only [outcome_level_nil]
    exact foretells_unary stop ts
  | cons ops tighter =>
    simp only [outcome_level_cons]
    exact (foretells_level tighter stop ts).seq fun q hq =>
      foretells_levelTail ops tighter q.value q.last stop q.rest
termination_by 10 * ts.length + levels.length + 2
decreasing_by
  · simp only [List.length_nil]
    omega
  · simp only [List.length_cons]
    omega
  · have := rest_length_lt hq
    simp only [List.length_cons]
    omega

/-- The further operands of one level. -/
theorem foretells_levelTail (ops : List BinaryOp) (tighter : List (List BinaryOp)) (left : Expr)
    (last stop : Token) (ts : List Token) :
    Foretells [] (fun stop ts => outcome (levelTail stop ops tighter left last ts)) stop ts := by
  cases ts with
  | nil => exact .finish left last (outcome_levelTail_nil ..)
  | cons t rest =>
    cases hop : binaryOp? ops t with
    | none => exact .stay left last fun _ _ => outcome_levelTail_of_none hop
    | some op =>
      have hright : Foretells [] (fun stop ts => outcome (level stop tighter ts) >>= fun right =>
          outcome (levelTail stop ops tighter (joinOperands op t left right.value) right.last
            right.rest)) stop rest :=
        (foretells_level tighter stop rest).seq fun q hq =>
          foretells_levelTail ops tighter (joinOperands op t left q.value) q.last stop q.rest
      refine .cons (foretells_require (fun x hx hrest => ?_) hright) fun _ _ =>
        outcome_levelTail_of_some hop
      rw [hrest, outcome_level_name hx]
      exact ⟨_, _, outcome_levelTail_nil ..⟩
termination_by 10 * ts.length + tighter.length
decreasing_by
  · subst_vars
    simp only [List.length_cons]
    omega
  · have := rest_length_lt hq
    subst_vars
    simp only [List.length_cons]
    omega

theorem foretells_unary (stop : Token) (ts : List Token) :
    Foretells [] (fun stop ts => outcome (unary stop ts)) stop ts := by
  cases ts with
  | nil => exact .blames_stop (outcome_unary_nil stop) (line_noOperand stop)
  | cons t rest =>
    cases hop : unaryOp? t rest with
    | none => exact foretells_operand hop (foretells_level BinaryOp.levels stop rest)
    | some op =>
      by_cases hone : ∃ x, rest = [x] ∧ x.kind = .identifier
      · obtain ⟨x, rfl, hx⟩ := hone
        refine .finish (.unary op (.name x.lexeme x.mark) ⟨t.span.join x.span, t.line⟩) x ?_
        rw [outcome_unary_of_some hop, ← outcome_level_nil, outcome_level_name hx, requireOperand,
          startsOperand_name hx]
        rfl
      by_cases hnil : rest = []
      · subst hnil
        refine .blames_stop (d := blame (.missingOperand t.lexeme) stop) ?_ rfl
        rw [outcome_unary_of_some hop]
        rfl
      have hoperand : Foretells [] (fun stop ts => outcome (unary stop ts) >>= fun operand =>
          .ok ⟨Expr.unary op operand.value ⟨t.span.join operand.value.mark.span, t.line⟩,
            operand.last, operand.rest⟩) stop rest :=
        .map (foretells_unary stop rest) fun _ _ _ _ => rfl
      exact .cons (foretells_require (fun x hx hrest => absurd ⟨x, hrest, hx⟩ hone) hoperand)
        fun _ us => outcome_unary_of_some ((unaryOp?_append hnil hone us).trans hop)
termination_by 10 * ts.length + 1
decreasing_by
  · have : BinaryOp.levels.length = 6 := rfl
    subst_vars
    simp only [List.length_cons]
    omega
  · subst_vars
    simp only [List.length_cons]
    omega

end

/-- An expression is read in the same way from a longer list, unless the source ended too early. -/
theorem foretells_expression (stop : Token) (ts : List Token) :
    Foretells [] (fun stop ts => outcome (expression stop ts)) stop ts :=
  foretells_level BinaryOp.levels stop ts

end Parse

end BisayaPlus
