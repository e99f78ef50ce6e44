import BisayaPlus.Proofs.Cursor
import BisayaPlus.Proofs.ErrorDetection

/-!
The steps of a cursor in front of the tokens that a reader has left. The cursor stands behind the
last token that was read, and no step of it looks beyond the stop.
-/

namespace BisayaPlus

open Token Parse

/-- A cursor stands behind a token, in front of some tokens with the stop behind them. -/
structure Stands (tokens : List Token) (stop last : Token) (ts : List Token) (pos : Nat) :
    Prop where
  display : ∃ before after, tokens = before ++ last :: (ts ++ stop :: after) ∧
    pos = before.length + 1
  stops : Program.endsBody stop = true
  inside : ∀ t ∈ ts, Program.endsBody t = false

namespace Stands

variable {tokens ts rest : List Token} {stop last t : Token} {pos : Nat}

theorem getElem? (h : Stands tokens stop last ts pos) : tokens[pos]? = some (next stop ts) := by
  obtain ⟨before, after, rfl, rfl⟩ := h.display
  rw [List.getElem?_append_right (Nat.le_add_right _ 1), Nat.add_sub_cancel_left]
  cases ts <;> rfl

theorem getElem?_previous (h : Stands tokens stop last ts pos) : tokens[pos - 1]? = some last := by
  obtain ⟨before, after, rfl, rfl⟩ := h.display
  simp

theorem pos_lt (h : Stands tokens stop last ts pos) : pos < tokens.length :=
  (List.getElem?_eq_some_iff.1 h.getElem?).1

theorem pos_ne_zero (h : Stands tokens stop last ts pos) : 0 < pos := by
  obtain ⟨before, after, -, rfl⟩ := h.display
  exact Nat.succ_pos _

/-- A cursor that moves over a token stands behind it. -/
theorem move (h : Stands tokens stop last (t :: rest) pos) :
    Stands tokens stop t rest (pos + 1) where
  display := by
    obtain ⟨before, after, htokens, hpos⟩ := h.display
    exact ⟨before ++ [last], after, by simp [htokens], by simp [hpos]⟩
  stops := h.stops
  inside u hu := h.inside u (List.mem_cons_of_mem t hu)

theorem kind_ne_sourceEnd (h : Stands tokens stop last (t :: rest) pos) :
    t.kind ≠ .sourceEnd := by
  have ht := h.inside t List.mem_cons_self
  intro hk
  simp [Program.endsBody, hk] at ht

theorem kind_stop (h : Stands tokens stop last ts pos) :
    stop.kind = .keyword .katapusan ∨ stop.kind = .sourceEnd := by
  simpa [Program.endsBody] using h.stops

/-- The stop is no symbol. -/
theorem isSymbol_next (h : Stands tokens stop last ts pos) (s : Symbol) :
    (next stop ts).isSymbol s = atSymbol s ts := by
  cases ts with
  | nil => rcases h.kind_stop with hs | hs <;> simp [next, Token.isSymbol, hs, atSymbol]
  | cons t rest => rfl

/-- A name with a symbol behind it is seen by a look at two tokens. -/
theorem pair_iff (h : Stands tokens stop last ts pos) (s : Symbol) :
    (decide (front? ts = some .identifier) && (tokens[pos + 1]?).any (·.isSymbol s)) = true ↔
      ∃ t rest, ts = t :: rest ∧ t.kind = .identifier ∧ front? rest = some (.symbol s) := by
  cases ts with
  | nil => simp
  | cons t rest =>
    rw [h.move.getElem?, Option.any_some, h.move.isSymbol_next, Bool.and_eq_true,
      decide_eq_true_iff, atSymbol_eq_true_iff, front?_cons, Option.some.injEq]
    constructor
    · rintro ⟨ht, hs⟩
      exact ⟨t, rest, rfl, ht, hs⟩
    · rintro ⟨_, _, heq, ht, hs⟩
      cases heq
      exact ⟨ht, hs⟩

end Stands

/-- A cursor reads what a reader reads, and then stands behind it. -/
def Mirrors {α : Type} (tokens : List Token) (stop : Token) (pos : Nat) (act : Cursor α) :
    Except Diagnostic (Reading α) → Prop
  | .error d => act tokens pos = some (.error d)
  | .ok q => ∃ pos', act tokens pos = some (.ok (q.value, pos')) ∧
    Stands tokens stop q.last q.rest pos'

namespace Cursor

variable {α β : Type} {tokens ts rest : List Token} {stop last t : Token} {pos pos' : Nat}

theorem bind_of_ok {act : Cursor α} {f : α → Cursor β} {a : α}
    (h : act tokens pos = some (.ok (a, pos'))) : (act >>= f) tokens pos = f a tokens pos' := by
  simp only [bind, ReaderT.bind, StateT.bind, ExceptT.bind, ExceptT.mk, h]
  rfl

theorem bind_of_error {act : Cursor α} {f : α → Cursor β} {d : Diagnostic}
    (h : act tokens pos = some (.error d)) : (act >>= f) tokens pos = some (.error d) := by
  simp only [bind, ReaderT.bind, StateT.bind, ExceptT.bind, ExceptT.mk, h]
  rfl

end Cursor

namespace Mirrors

open Cursor

variable {α β : Type} {tokens ts rest : List Token} {stop last t : Token} {pos pos' : Nat}

theorem pure {a : α} (h : Stands tokens stop last ts pos) :
    Mirrors tokens stop pos (pure a) (.ok ⟨a, last, ts⟩) :=
  ⟨pos, rfl, h⟩

theorem throw (d : Diagnostic) :
    Mirrors tokens stop pos (throw d : Cursor α) (.error d) :=
  rfl

/-- A step that reads nothing, or whose move is known. -/
theorem step {act : Cursor α} {f : α → Cursor β} {a : α} {r : Except Diagnostic (Reading β)}
    (h : act tokens pos = some (.ok (a, pos'))) (hf : Mirrors tokens stop pos' (f a) r) :
    Mirrors tokens stop pos (act >>= f) r := by
  cases r with
  | error d =>
    exact (bind_of_ok h).trans hf
  | ok q =>
    obtain ⟨pos'', hrun, hstands⟩ := hf
    exact ⟨pos'', (bind_of_ok h).trans hrun, hstands⟩

/-- Readers in sequence are mirrored if each of them is. -/
theorem bind {act : Cursor α} {f : α → Cursor β} {r : Except Diagnostic (Reading α)}
    {g : Reading α → Except Diagnostic (Reading β)} (h : Mirrors tokens stop pos act r)
    (hf : ∀ q pos', r = .ok q → Stands tokens stop q.last q.rest pos' →
      Mirrors tokens stop pos' (f q.value) (g q)) :
    Mirrors tokens stop pos (act >>= f) (r >>= g) := by
  cases r with
  | error d => exact bind_of_error h
  | ok q =>
    obtain ⟨pos', hrun, hstands⟩ := h
    exact step hrun (hf q pos' rfl hstands)

end Mirrors

namespace Cursor

variable {α β : Type} {tokens ts rest : List Token} {stop last t : Token} {pos pos' : Nat}

theorem peek_eq (h : Stands tokens stop last ts pos) :
    Steps.plain.peek tokens pos = some (.ok (next stop ts, pos)) := by
  have hmin : min pos (tokens.length - 1) = pos := Nat.min_eq_left (Nat.le_sub_one_of_lt h.pos_lt)
  have hget : token (min pos (tokens.length - 1)) tokens pos = some (.ok (next stop ts, pos)) := by
    rw [hmin, token, h.getElem?]
    rfl
  exact hget

theorem peek_nil (h : Stands tokens stop last [] pos) :
    Steps.plain.peek tokens pos = some (.ok (stop, pos)) :=
  peek_eq h

theorem peek_cons (h : Stands tokens stop last (t :: rest) pos) :
    Steps.plain.peek tokens pos = some (.ok (t, pos)) :=
  peek_eq h

theorem previous_eq (h : Stands tokens stop last ts pos) :
    Steps.plain.previous tokens pos = some (.ok (last, pos)) := by
  have hget : token (pos - 1) tokens pos = some (.ok (last, pos)) := by
    rw [token, h.getElem?_previous]
    rfl
  exact hget

theorem atSourceEnd_cons (h : Stands tokens stop last (t :: rest) pos) :
    atSourceEnd .plain tokens pos = some (.ok (false, pos)) := by
  rw [← beq_eq_false_iff_ne.2 h.kind_ne_sourceEnd]
  exact bind_of_ok (peek_cons h)

theorem atSourceEnd_nil (h : Stands tokens stop last [] pos) :
    atSourceEnd .plain tokens pos = some (.ok (stop.kind == .sourceEnd, pos)) :=
  bind_of_ok (peek_nil h)

theorem advance_of_atSourceEnd {b : Bool}
    (h : atSourceEnd .plain tokens pos = some (.ok (b, pos))) :
    advance .plain tokens pos = Steps.plain.previous tokens (if b then pos else pos + 1) := by
  rw [advance, bind_of_ok h]
  cases b <;> rfl

theorem advance_cons (h : Stands tokens stop last (t :: rest) pos) :
    advance .plain tokens pos = some (.ok (t, pos + 1)) := by
  rw [advance_of_atSourceEnd (atSourceEnd_cons h)]
  exact previous_eq h.move

/-- At the end of the body the cursor returns the token that the parser blames. -/
theorem advance_nil (h : Stands tokens stop last [] pos) :
    ∃ pos', advance .plain tokens pos = some (.ok (taken stop last [], pos')) := by
  rw [advance_of_atSourceEnd (atSourceEnd_nil h), taken]
  by_cases hs : stop.kind = .sourceEnd
  · simp only [hs, beq_self_eq_true, if_true]
    exact ⟨pos, previous_eq h⟩
  · have hget : token (pos + 1 - 1) tokens (pos + 1) = some (.ok (stop, pos + 1)) := by
      rw [Nat.add_sub_cancel, token, h.getElem?]
      rfl
    simp only [hs, if_false, beq_eq_false_iff_ne.2 hs]
    exact ⟨pos + 1, hget⟩

theorem check_cons {kind : Token.Kind} (h : Stands tokens stop last (t :: rest) pos) :
    check .plain kind tokens pos = some (.ok (t.kind == kind, pos)) := by
  rw [check, bind_of_ok (atSourceEnd_cons h)]
  exact bind_of_ok (peek_cons h)

theorem check_nil {kind : Token.Kind} (h : Stands tokens stop last [] pos) :
    check .plain kind tokens pos =
      some (.ok (stop.kind != .sourceEnd && stop.kind == kind, pos)) := by
  rw [check, bind_of_ok (atSourceEnd_nil h)]
  rcases h.kind_stop with hs | hs
  · rw [hs]
    refine (bind_of_ok (peek_nil h)).trans ?_
    rw [hs]
    rfl
  · rw [hs]
    rfl

/-- The stop is of no kind that a reader looks for. -/
theorem check_eq {kind : Token.Kind} (h : Stands tokens stop last ts pos)
    (hkind : kind ≠ .keyword .katapusan) :
    check .plain kind tokens pos = some (.ok (decide (front? ts = some kind), pos)) := by
  cases ts with
  | nil =>
    have hne : (stop.kind != .sourceEnd && stop.kind == kind) = false := by
      rcases h.kind_stop with hs | hs <;> simp [hs, hkind.symm]
    rw [check_nil h, hne]
    rfl
  | cons t rest =>
    have hiff : (t.kind == kind) = decide (front? (t :: rest) = some kind) := by
      by_cases hk : t.kind = kind <;> simp [hk]
    rw [check_cons h, hiff]

theorem atBodyEnd_nil (h : Stands tokens stop last [] pos) :
    atBodyEnd .plain tokens pos = some (.ok (true, pos)) := by
  rw [atBodyEnd, bind_of_ok (check_nil h), bind_of_ok (atSourceEnd_nil h)]
  rcases h.kind_stop with hs | hs <;> rw [hs] <;> rfl

theorem atBodyEnd_cons (h : Stands tokens stop last (t :: rest) pos) :
    atBodyEnd .plain tokens pos = some (.ok (false, pos)) := by
  have hne : (t.kind == .keyword .katapusan) = false := by
    have ht := h.inside t List.mem_cons_self
    rw [Program.endsBody, Bool.or_eq_false_iff] at ht
    exact ht.1
  rw [atBodyEnd, bind_of_ok (check_cons h), bind_of_ok (atSourceEnd_cons h), hne]
  rfl

theorem accept_of_eq {kind : Token.Kind} (h : Stands tokens stop last (t :: rest) pos)
    (hkind : kind ≠ .keyword .katapusan) (ht : t.kind = kind) :
    accept .plain kind tokens pos = some (.ok (true, pos + 1)) := by
  rw [accept, bind_of_ok (check_eq h hkind)]
  simp only [front?_cons, ht, decide_true, if_true]
  exact bind_of_ok (advance_cons h)

theorem accept_of_ne {kind : Token.Kind} (h : Stands tokens stop last ts pos)
    (hkind : kind ≠ .keyword .katapusan) (hts : front? ts ≠ some kind) :
    accept .plain kind tokens pos = some (.ok (false, pos)) := by
  rw [accept, bind_of_ok (check_eq h hkind)]
  simp only [hts, decide_false]
  rfl

theorem faultSpan_cons (h : Stands tokens stop last (t :: rest) pos) :
    faultSpan .plain tokens pos = some (.ok (t.span, pos)) := by
  have hget : (get : Cursor Nat) tokens pos = some (.ok (pos, pos)) := rfl
  rw [faultSpan, bind_of_ok hget, bind_of_ok (atSourceEnd_cons h)]
  exact bind_of_ok (peek_cons h)

/-- At the end of the source a fault is placed on the byte behind the last token. -/
theorem faultSpan_nil (h : Stands tokens stop last [] pos) : faultSpan .plain tokens pos =
    some (.ok (if stop.kind = .sourceEnd then last.span.next else stop.span, pos)) := by
  have hget : (get : Cursor Nat) tokens pos = some (.ok (pos, pos)) := rfl
  have htoken : token (pos - 1) tokens pos = some (.ok (last, pos)) := previous_eq h
  rw [faultSpan, bind_of_ok hget, bind_of_ok (atSourceEnd_nil h)]
  by_cases hs : stop.kind = .sourceEnd
  · simp only [hs, beq_self_eq_true, h.pos_ne_zero, decide_true, Bool.and_self, if_true]
    exact bind_of_ok htoken
  · simp only [hs, if_false, beq_eq_false_iff_ne.2 hs, Bool.false_and]
    exact bind_of_ok (peek_eq h)

/-- A token that is missing at the stop. -/
theorem consume_nil {kind : Token.Kind} (what : Expectation) (h : Stands tokens stop last [] pos)
    (hcheck : check .plain kind tokens pos = some (.ok (false, pos))) :
    consume .plain kind what tokens pos = some (.error (unmet stop last what [])) := by
  rw [consume, bind_of_ok hcheck]
  refine (bind_of_ok (peek_nil h)).trans ((bind_of_ok (faultSpan_nil h)).trans ?_)
  rw [unmet]
  by_cases hs : stop.kind = .sourceEnd <;> simp only [hs, if_true, if_false] <;> rfl

/-- Consuming a token mirrors the parser's way to expect it. -/
theorem mirrors_consume {kind : Token.Kind} (what : Expectation)
    (h : Stands tokens stop last ts pos) (hkind : kind ≠ .keyword .katapusan) :
    Mirrors tokens stop pos (consume .plain kind what)
      (outcome (expect stop kind what last ts)) := by
  have hcheck := check_eq h hkind
  cases ts with
  | nil => exact consume_nil what h hcheck
  | cons t rest =>
    rw [consume]
    refine .step hcheck ?_
    by_cases hk : t.kind = kind
    · rw [outcome_expect_of_eq hk]
      simp only [front?_cons, hk, decide_true, if_true]
      exact ⟨pos + 1, advance_cons h, h.move⟩
    · have hunmet : outcome (expect stop kind what last (t :: rest)) =
          .error (blame (.expected what (some t.lexeme)) t) := by
        simp only [expect, hk, if_false]
        rfl
      rw [hunmet]
      simp only [front?_cons, Option.some.injEq, hk, decide_false]
      refine .step (peek_cons h) (.step (faultSpan_cons h) ?_)
      simp only [h.kind_ne_sourceEnd, if_false]
      exact Mirrors.throw _

/-- An operand begins where the tokens in front of the stop begin one, which the stop does not. -/
theorem startsOperandAt_eq {i : Nat} (h : Stands tokens stop last ts i) (pos : Nat) :
    startsOperandAt .plain i tokens pos = some (.ok (startsOperand ts, pos)) := by
  have hget : Steps.plain.token? i tokens pos = some (.ok (some (next stop ts), pos)) := by
    rw [← h.getElem?]
    rfl
  rw [startsOperandAt, bind_of_ok hget]
  cases ts with
  | nil =>
    dsimp only [next, List.headD_nil]
    rcases h.kind_stop with hs | hs <;> rw [hs] <;> rfl
  | cons t rest =>
    dsimp only [next, List.headD_cons, startsOperand]
    cases hk : t.kind with
    | identifier =>
      have hget' : Steps.plain.token? (i + 1) tokens pos =
          some (.ok (some (next stop rest), pos)) := by
        rw [← h.move.getElem?]
        rfl
      refine (bind_of_ok hget').trans ?_
      simp only [Option.any_some, h.move.isSymbol_next]
      rfl
    | _ => rfl

/-- An operator is followed by an operand, or reading fails. -/
theorem mirrors_require {operator : Token} {f : Unit → Cursor β} {r : Except Diagnostic (Reading β)}
    (h : Stands tokens stop last ts pos) (hf : Mirrors tokens stop pos (f ()) r) :
    Mirrors tokens stop pos (requireOperand .plain operator >>= f)
      (Parse.requireOperand stop operator ts >>= fun _ => r) := by
  have hget : (get : Cursor Nat) tokens pos = some (.ok (pos, pos)) := rfl
  cases hs : startsOperand ts with
  | true =>
    have hrun : requireOperand .plain operator tokens pos = some (.ok ((), pos)) := by
      rw [requireOperand, bind_of_ok hget, bind_of_ok (startsOperandAt_eq h pos), hs]
      rfl
    rw [Parse.requireOperand, hs]
    exact .step hrun hf
  | false =>
    have hrun : requireOperand .plain operator tokens pos =
        some (.error (blame (.missingOperand operator.lexeme) (next stop ts))) := by
      rw [requireOperand, bind_of_ok hget, bind_of_ok (startsOperandAt_eq h pos), hs]
      exact bind_of_ok (peek_eq h)
    rw [Parse.requireOperand, hs]
    exact bind_of_error hrun

theorem acceptBinary_nil {ops : List BinaryOp} (h : Stands tokens stop last [] pos) :
    acceptBinary .plain ops tokens pos = some (.ok (none, pos)) := by
  have hnone : binaryOp? ops stop = none := by
    rcases h.kind_stop with hs | hs <;> rw [binaryOp?, hs] <;> rfl
  rw [acceptBinary, bind_of_ok (peek_nil h)]
  simp only [hnone]
  rfl

theorem acceptBinary_of_none {ops : List BinaryOp} (h : Stands tokens stop last (t :: rest) pos)
    (ht : binaryOp? ops t = none) :
    acceptBinary .plain ops tokens pos = some (.ok (none, pos)) := by
  rw [acceptBinary, bind_of_ok (peek_cons h)]
  simp only [ht]
  rfl

theorem acceptBinary_of_some {ops : List BinaryOp} {op : BinaryOp}
    (h : Stands tokens stop last (t :: rest) pos) (ht : binaryOp? ops t = some op) :
    acceptBinary .plain ops tokens pos = some (.ok (some op, pos + 1)) := by
  rw [acceptBinary, bind_of_ok (peek_cons h)]
  simp only [ht]
  exact bind_of_ok (advance_cons h)

theorem atNot_nil (h : Stands tokens stop last [] pos) :
    atNot .plain tokens pos = some (.ok (false, pos)) := by
  rw [atNot, bind_of_ok (peek_nil h)]
  rcases h.kind_stop with hs | hs <;> rw [hs] <;> rfl

theorem atNot_cons (h : Stands tokens stop last (t :: rest) pos) :
    atNot .plain tokens pos = some (.ok
      (decide (t.kind = .boolean ∧ t.lexeme = Value.falseWord ∧ startsOperand rest), pos)) := by
  have hget : (get : Cursor Nat) tokens pos = some (.ok (pos, pos)) := rfl
  rw [atNot, bind_of_ok (peek_cons h)]
  by_cases hfalse : t.kind = .boolean ∧ t.lexeme = Value.falseWord
  · have hcond : (t.kind == .boolean && t.lexeme == Value.falseWord) = true := by
      simp [hfalse.1, hfalse.2]
    rw [if_pos hcond, bind_of_ok hget, startsOperandAt_eq h.move pos]
    simp [hfalse.1, hfalse.2]
  · have hcond : ¬(t.kind == .boolean && t.lexeme == Value.falseWord) = true := by
      simpa using hfalse
    have hnot : ¬(t.kind = .boolean ∧ t.lexeme = Value.falseWord ∧ startsOperand rest) :=
      fun hall => hfalse ⟨hall.1, hall.2.1⟩
    rw [if_neg hcond, decide_eq_false hnot]
    rfl

theorem acceptUnary_nil (h : Stands tokens stop last [] pos) :
    acceptUnary .plain tokens pos = some (.ok (none, pos)) := by
  rw [acceptUnary, bind_of_ok (accept_of_ne h (by simp) (by simp))]
  refine (bind_of_ok (accept_of_ne h (by simp) (by simp))).trans ?_
  exact bind_of_ok (atNot_nil h)

theorem acceptUnary_cons (h : Stands tokens stop last (t :: rest) pos) :
    acceptUnary .plain tokens pos =
      some (.ok (unaryOp? t rest, if (unaryOp? t rest).isSome then pos + 1 else pos)) := by
  rw [acceptUnary, unaryOp?]
  by_cases hm : t.kind = .symbol .minus
  · rw [bind_of_ok (accept_of_eq h (by simp) hm), if_pos hm]
    rfl
  rw [bind_of_ok (accept_of_ne h (by simp) (by simpa using hm)), if_neg hm]
  by_cases hp : t.kind = .symbol .plus
  · refine (bind_of_ok (accept_of_eq h (by simp) hp)).trans ?_
    rw [if_pos hp]
    rfl
  refine (bind_of_ok (accept_of_ne h (by simp) (by simpa using hp))).trans ?_
  rw [if_neg hp]
  refine (bind_of_ok (atNot_cons h)).trans ?_
  by_cases hn : t.kind = .boolean ∧ t.lexeme = Value.falseWord ∧ startsOperand rest
  · rw [decide_eq_true hn, if_pos hn]
    exact bind_of_ok (advance_cons h)
  · rw [decide_eq_false hn, if_neg hn]
    rfl

end Cursor

end BisayaPlus
