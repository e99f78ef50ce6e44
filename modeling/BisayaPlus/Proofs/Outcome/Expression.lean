import BisayaPlus.Program.Expression
import BisayaPlus.Proofs.Prelude

/-!
The outcome of a reader is what it returned without the bound on the number of tokens left. Each
reader has one equation, which gives its outcome by the outcomes of the readers that it calls. All
that is proved about reading starts from these equations.
-/

namespace BisayaPlus

structure Reading (α : Type) where
  value : α
  last : Token
  rest : List Token

def Parsed.reading {α : Type} {n : Nat} (p : Parsed α n) : Reading α :=
  ⟨p.value, p.last, p.rest⟩

namespace Parse

variable {α β : Type} {m n : Nat}

def outcome (r : Except Diagnostic (Parsed α n)) : Except Diagnostic (Reading α) :=
  r.map Parsed.reading

def accepted (kind : Token.Kind) (ts : List Token) : Option (Reading Token) :=
  (accept kind ts).map Parsed.reading

@[simp] theorem outcome_ok (p : Parsed α n) : outcome (.ok p) = .ok p.reading := rfl

@[simp] theorem outcome_pure (p : Parsed α n) : outcome (pure p) = .ok p.reading := rfl

@[simp] theorem outcome_error (d : Diagnostic) :
    outcome (.error d : Except Diagnostic (Parsed α n)) = .error d := rfl

/-- Reading in two parts is reading the one and then the other. -/
theorem outcome_bind {x : Except Diagnostic (Parsed α m)}
    {f : Parsed α m → Except Diagnostic (Parsed β n)}
    {g : Reading α → Except Diagnostic (Reading β)} (h : ∀ p, outcome (f p) = g p.reading) :
    outcome (x >>= f) = outcome x >>= g := by
  cases x with
  | error d => rfl
  | ok p => exact h p

@[simp] theorem outcome_weaken (x : Except Diagnostic (Parsed α m)) (h : m ≤ n) :
    outcome (x >>= fun p => pure (p.weaken h)) = outcome x := by
  cases x <;> rfl

theorem rest_length_lt {x : Except Diagnostic (Parsed α n)} {q : Reading α}
    (h : outcome x = .ok q) : q.rest.length < n := by
  cases x with
  | error d => cases h
  | ok p =>
    cases h
    exact p.shorter

theorem outcome_level_nil (stop : Token) (ts : List Token) :
    outcome (level stop [] ts) = outcome (unary stop ts) := by
  rw [level]

/-- A level reads an operand of the next one, and then its own operators. -/
theorem outcome_level_cons (stop : Token) (ops : List BinaryOp) (tighter : List (List BinaryOp))
    (ts : List Token) :
    outcome (level stop (ops :: tighter) ts) =
      outcome (level stop tighter ts) >>= fun first =>
        outcome (levelTail stop ops tighter first.value first.last first.rest) := by
  rw [level]
  apply outcome_bind
  intro first
  exact outcome_weaken _ first.shorter

theorem outcome_levelTail_nil (stop : Token) (ops : List BinaryOp)
    (tighter : List (List BinaryOp)) (left : Expr) (last : Token) :
    outcome (levelTail stop ops tighter left last []) = .ok ⟨left, last, []⟩ := by
  rw [levelTail]
  rfl

theorem outcome_levelTail_of_none {stop t : Token} {ops : List BinaryOp}
    {tighter : List (List BinaryOp)} {left : Expr} {last : Token} {rest : List Token}
    (h : binaryOp? ops t = none) :
    outcome (levelTail stop ops tighter left last (t :: rest)) = .ok ⟨left, last, t :: rest⟩ := by
  rw [levelTail]
  simp only [h]
  rfl

/-- An operator of the level must have an operand, which is joined to what stands on its left. -/
theorem outcome_levelTail_of_some {stop t : Token} {ops : List BinaryOp}
    {tighter : List (List BinaryOp)} {left : Expr} {last : Token} {rest : List Token}
    {op : BinaryOp}
    (h : binaryOp? ops t = some op) :
    outcome (levelTail stop ops tighter left last (t :: rest)) =
      requireOperand stop t rest >>= fun _ =>
        outcome (level stop tighter rest) >>= fun right =>
          outcome (levelTail stop ops tighter (joinOperands op t left right.value) right.last
            right.rest) := by
  rw [levelTail]
  simp only [h]
  cases requireOperand stop t rest with
  | error d => rfl
  | ok u =>
    apply outcome_bind
    intro right
    apply outcome_weaken

theorem outcome_unary_nil (stop : Token) :
    outcome (unary stop []) = .error (noOperand stop) := by
  rw [unary]
  rfl

theorem outcome_unary_of_none {stop t : Token} {rest : List Token} (h : unaryOp? t rest = none) :
    outcome (unary stop (t :: rest)) = outcome (primary stop t rest) := by
  rw [unary]
  simp only [h]

/-- A unary operator applies to what is read behind it, with any further unary operators. -/
theorem outcome_unary_of_some {stop t : Token} {rest : List Token} {op : UnaryOp}
    (h : unaryOp? t rest = some op) :
    outcome (unary stop (t :: rest)) =
      requireOperand stop t rest >>= fun _ =>
        outcome (unary stop rest) >>= fun operand =>
          .ok ⟨.unary op operand.value ⟨t.span.join operand.value.mark.span, t.line⟩,
            operand.last, operand.rest⟩ := by
  rw [unary]
  simp only [h]
  cases requireOperand stop t rest with
  | error d => rfl
  | ok u => exact outcome_bind fun operand => rfl

def parenthesised (stop t : Token) : List Token → Except Diagnostic (Reading Expr)
  | [] => .error (noOperand stop)
  | r :: others =>
    if r.kind = .symbol .rightParen then
      .error ⟨.grammatical .emptyParentheses, ⟨t.span.join r.span, t.line⟩⟩
    else
      outcome (level stop BinaryOp.levels (r :: others)) >>= fun inner =>
        outcome (expect stop (.symbol .rightParen) .closingParenthesis inner.last inner.rest) >>=
          fun close => .ok ⟨inner.value, close.last, close.rest⟩

/-- Between operators stand literals, names, parentheses and the symbols with a text. -/
theorem outcome_primary (stop t : Token) (rest : List Token) :
    outcome (primary stop t rest) =
      match literal? t with
      | some value => value >>= fun v => .ok ⟨.literal v t.mark, t, rest⟩
      | none =>
        match t.kind with
        | .identifier => .ok ⟨.name t.lexeme t.mark, t, rest⟩
        | .symbol .leftParen => parenthesised stop t rest
        | .symbol s =>
          match symbolText? s with
          | some text => .ok ⟨.literal (.text text) t.mark, t, rest⟩
          | none => .error (blame (.notExpression t.kind t.lexeme) t)
        | _ => .error (blame (.notExpression t.kind t.lexeme) t) := by
  rw [primary.eq_def]
  cases hl : literal? t with
  | some value => cases value <;> rfl
  | none =>
    cases hk : t.kind with
    | symbol s =>
      by_cases hs : s = .leftParen
      · subst hs
        cases rest with
        | nil => rfl
        | cons r others =>
          by_cases hr : r.kind = .symbol .rightParen
          · simp [parenthesised, hr]
            rfl
          · simp [parenthesised, hr]
            apply outcome_bind
            intro inner
            apply outcome_bind
            intro close
            rfl
      · cases s <;> first | contradiction | rfl
    | _ => rfl

end Parse

end BisayaPlus
