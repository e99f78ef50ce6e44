import BisayaPlus.Proofs.Integers
import BisayaPlus.Proofs.Printing

/-!
The header of a loop that counts. Its tokens are those of `ALANG SA (i = a, i <= b, i++)` for a name
and two integers. Whatever block stands behind them, they are read as the loop of that block which
begins with the one integer, tests for the other, and adds one.
-/

namespace BisayaPlus

def Expr.integer (n : Int) : Expr :=
  if n < 0 then
    .unary .negate (.literal (.number (.ofNat n.natAbs)) .blank) .blank
  else
    .literal (.number (.ofNat n.natAbs)) .blank

def LoopHeader.counting (i : String) (a b : Int) : LoopHeader where
  initializer := .assignment ⟨[i], .integer a, .blank⟩
  condition := .binary .lessEqual (.name i .blank) (.integer b) .blank
  increment := ⟨[i], .binary .add (.name i .blank) (.literal (.number (.ofNat 1)) .blank) .blank,
    .blank⟩

namespace Terminal

def integer (n : Int) : List Terminal :=
  if n < 0 then
    [symbol .minus, .literal (.number (.ofNat n.natAbs))]
  else
    [.literal (.number (.ofNat n.natAbs))]

/-- The text `ALANG SA (i = a, i <= b, i++)`. -/
def counting (i : String) (a b : Int) : List Terminal :=
  word .alang :: word .sa :: symbol .leftParen :: .name i :: symbol .equal ::
    (integer a ++ symbol .comma :: .name i :: symbol .lessEqual ::
      (integer b ++ [symbol .comma, .name i, symbol .increment, symbol .rightParen]))

end Terminal

namespace Grammar

open Token Terminal Parse

variable {i : String} {a b n : Int} {ts hs us rest : List Token}

theorem finite_integer (hn : n.natAbs ≤ 2 ^ 53) : (Expr.integer n).Finite := by
  have hnumber : (Number.ofNat n.natAbs).isFinite = true := by
    rw [← Number.ofInt_natCast]
    exact Number.isFinite_ofInt hn
  unfold Expr.integer
  split
  · exact hnumber
  · exact hnumber

theorem terminals_integer (k : Nat) (n : Int) : (Expr.integer n).terminals k = integer n := by
  unfold Expr.integer integer
  split
  · rfl
  · rfl

/-- An integer in digits can stand for an operand of each level. -/
theorem exprAt_integer (hn : n.natAbs ≤ 2 ^ 53) (h : Writes (integer n) ts rest)
    (hr : front? rest ≠ some (.symbol .equal)) {k : Nat} (hk : k ≤ 6) :
    ExprAt k ts (.integer n) rest := by
  rw [← terminals_integer k] at h
  exact exprAt_of_writes hk (finite_integer hn) h hr

/-- The clauses between the parentheses are those of a loop that counts. -/
theorem exists_loopHeaderAt (ha : a.natAbs ≤ 2 ^ 53) (hb : b.natAbs ≤ 2 ^ 53)
    (h : Writes (Terminal.counting i a b) ts rest) : ∃ start word us, ts = start :: word :: us ∧
      start.kind = .keyword .alang ∧ word.kind = .keyword .sa ∧
      LoopHeaderAt us (.counting i a b) rest := by
  obtain ⟨start, _, rfl, hstart, word, us, rfl, hword, h⟩ := h
  obtain ⟨opening, _, rfl, hopening, name, _, rfl, hname, equal, vs, rfl, hequal, h⟩ := h
  obtain ⟨_, hfirst, comma, ws, rfl, hcomma, h⟩ := writes_append.1 h
  obtain ⟨name', _, rfl, hname', op, xs, rfl, hop, h⟩ := h
  obtain ⟨_, hlast, comma', ys, rfl, hcomma', h⟩ := writes_append.1 h
  obtain ⟨name'', _, rfl, hname'', increment, zs, rfl, hincrement, h⟩ := h
  obtain ⟨closing, rest, rfl, hclosing, rfl⟩ := h
  have hinitializer : AssignmentAt (name :: equal :: vs) ⟨[i], .integer a, .blank⟩
      (comma :: name' :: op :: xs) := by
    have hvalue := exprAt_integer ha hfirst (front?_ne_of_fits hcomma (by decide)) (Nat.zero_le 6)
    obtain ⟨hk, rfl⟩ := hname
    exact .mk (.cons hk hequal .nil) hvalue
  have hcondition : ExprAt 0 (name' :: op :: xs)
      (.binary .lessEqual (.name i .blank) (.integer b) .blank)
      (comma' :: name'' :: increment :: closing :: rest) := by
    have hfour : 4 ≤ 6 := by decide
    have hbound := exprAt_integer hb hlast (front?_ne_of_fits hcomma' (by decide)) hfour
    obtain ⟨hk, rfl⟩ := hname'
    have hleft : ExprAt 3 (name' :: op :: xs) (.name name'.lexeme .blank) (op :: xs) :=
      (ExprAt.name hk).loosen (Nat.le_refl 6) (by decide)
    have hall : ExprAt 3 (name' :: op :: xs)
        (.binary .lessEqual (.name name'.lexeme .blank) (.integer b) .blank)
        (comma' :: name'' :: increment :: closing :: rest) := .binary rfl hop hleft hbound
    exact hall.loosen (by decide) (Nat.zero_le 3)
  have hsuccessor : LoopIncrementAt (name'' :: increment :: closing :: rest)
      (LoopHeader.counting i a b).increment (closing :: rest) := by
    obtain ⟨hk, rfl⟩ := hname''
    exact .increment hk hincrement
  exact ⟨start, word, _, rfl, hstart, hword,
    .mk hopening (.assignment hinitializer) hcomma hcondition hcomma' hsuccessor hclosing⟩

end Grammar

namespace Parse

open Token

variable {i : String} {a b : Int} {hs us : List Token}

/-- What a block is read as does not depend on what stands before it. -/
theorem outcome_block_eq_ok {stop last last' : Token} {owner owner' : Owner} {ts : List Token}
    {q : Reading Block} (h : outcome (block stop owner last ts) = .ok q) :
    outcome (block stop owner' last' ts) = .ok q := by
  -- The owner and the token before only go into the faults of the word and of the closing brace.
  rw [outcome_block] at h ⊢
  obtain ⟨word, hword, h⟩ := Except.bind_eq_ok_iff.1 h
  obtain ⟨t, rest, rfl, ht, rfl⟩ := outcome_expect_eq_ok_iff.1 hword
  obtain ⟨start, hstart, h⟩ := Except.bind_eq_ok_iff.1 h
  obtain ⟨body, hbody, h⟩ := Except.bind_eq_ok_iff.1 h
  obtain ⟨close, hclose, h⟩ := Except.bind_eq_ok_iff.1 h
  obtain ⟨c, rest', hrest, hc, rfl⟩ := outcome_expect_eq_ok_iff.1 hclose
  rw [outcome_expect_of_eq ht]
  refine Except.bind_eq_ok_iff.2 ⟨_, rfl, Except.bind_eq_ok_iff.2 ⟨start, hstart, ?_⟩⟩
  refine Except.bind_eq_ok_iff.2 ⟨body, hbody, Except.bind_eq_ok_iff.2 ⟨⟨c, c, rest'⟩, ?_, h⟩⟩
  rw [hrest, outcome_expect_of_eq hc]

theorem exists_eq_ok_of_outcome {α : Type} {n : Nat} {r : Except Diagnostic (Parsed α n)}
    {q : Reading α} (h : outcome r = .ok q) : ∃ p, r = .ok p ∧ p.reading = q := by
  cases r with
  | error d => cases h
  | ok p => exact ⟨p, rfl, Except.ok.inj h⟩

/-- A counting header and a block are read as a loop, which has the clauses that are written and
leaves what stands behind the block. -/
theorem exists_statement_counting {stop last start : Token} {owner : Owner}
    {body : Parsed Block us.length} (ha : a.natAbs ≤ 2 ^ 53) (hb : b.natAbs ≤ 2 ^ 53)
    (hhs : List.Forall₂ Terminal.Fits (Terminal.counting i a b) hs)
    (hbody : block stop owner start us = .ok body) :
    ∃ q, ∃ header : LoopHeader, ∃ span, statement stop last (hs ++ us) = .ok q ∧
      q.rest = body.rest ∧
      q.value = .loop header.initializer header.condition header.increment body.value span ∧
      header.unmarked = (LoopHeader.counting i a b).unmarked := by
  have hwrites : Terminal.Writes (Terminal.counting i a b) (hs ++ us) us :=
    Terminal.writes_iff.2 ⟨hs, rfl, hhs⟩
  obtain ⟨t, word, vs, heq, ht, hword, hheader⟩ := Grammar.exists_loopHeaderAt ha hb hwrites
  obtain ⟨header, last', hread, hunmarked⟩ := hheader.gives stop word
  have hblock : outcome (block stop .alangSa last' us) = .ok body.reading := by
    apply outcome_block_eq_ok
    rw [hbody]
    rfl
  have hloop : outcome (statement stop last (hs ++ us)) =
      .ok ⟨.loop header.initializer header.condition header.increment body.value
        (t.span.join body.value.span), body.last, body.rest⟩ := by
    rw [heq, outcome_statement_cons, statementAt, ht]
    dsimp only
    rw [outcome_loop, outcome_expect_of_eq hword]
    refine Except.bind_eq_ok_iff.2 ⟨_, rfl, Except.bind_eq_ok_iff.2 ⟨_, hread, ?_⟩⟩
    exact Except.bind_eq_ok_iff.2 ⟨_, hblock, rfl⟩
  obtain ⟨q, hq, hreading⟩ := exists_eq_ok_of_outcome hloop
  refine ⟨q, header, t.span.join body.value.span, hq, ?_, ?_, hunmarked⟩
  · exact congrArg Reading.rest hreading
  · exact congrArg Reading.value hreading

end Parse

end BisayaPlus
