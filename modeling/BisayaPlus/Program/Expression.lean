import BisayaPlus.Program.Parsed

/-!
Reading expressions. Binary operators are read level by level, the weakest first, and group to the
left. Unary operators bind tighter than all of them. Parentheses leave no trace in the tree.
-/

namespace BisayaPlus

def BinaryOp.ofKind? : Token.Kind → Option BinaryOp
  | .keyword .o => some .or
  | .keyword .ug => some .and
  | .symbol .equalEqual => some .equal
  | .symbol .lessGreater => some .notEqual
  | .symbol .greater => some .greater
  | .symbol .greaterEqual => some .greaterEqual
  | .symbol .less => some .less
  | .symbol .lessEqual => some .lessEqual
  | .symbol .minus => some .subtract
  | .symbol .plus => some .add
  | .symbol .slash => some .divide
  | .symbol .star => some .multiply
  | .symbol .percent => some .modulo
  | _ => none

namespace Parse

def symbolText? : Symbol → Option String
  | .dollar => some "\n"
  | .escapeOpenBracket => some "["
  | .escapeCloseBracket => some "]"
  | .escapeHash => some "#"
  | _ => none

/-- Whether an operand can begin here. A name with an equal sign after it begins an assignment. -/
def startsOperand : List Token → Bool
  | [] => false
  | t :: rest =>
    match t.kind with
    | .number | .text | .character | .boolean => true
    | .identifier => !atSymbol .equal rest
    | .symbol s => s == .leftParen || s == .plus || s == .minus || (symbolText? s).isSome
    | _ => false

/-- The unary operator that a token stands for before the others. The word for false negates if
an operand follows it. -/
def unaryOp? (t : Token) (rest : List Token) : Option UnaryOp :=
  if t.kind = .symbol .minus then
    some .negate
  else if t.kind = .symbol .plus then
    some .plus
  else if t.kind = .boolean ∧ t.lexeme = Value.falseWord ∧ startsOperand rest then
    some .not
  else
    none

def binaryOp? (level : List BinaryOp) (t : Token) : Option BinaryOp :=
  (BinaryOp.ofKind? t.kind).filter level.contains

def requireOperand (stop operator : Token) (ts : List Token) : Except Diagnostic Unit :=
  if startsOperand ts then
    .ok ()
  else
    .error (blame (.missingOperand operator.lexeme) (next stop ts))

/-- An operator between two operands. It is placed on the line of its own token. -/
def joinOperands (op : BinaryOp) (operator : Token) (left right : Expr) : Expr :=
  .binary op left right ⟨left.mark.span.join right.mark.span, operator.line⟩

def noOperand (stop : Token) : Diagnostic :=
  if stop.kind = .sourceEnd then
    blame .missingExpression stop
  else
    blame (.notExpression stop.kind stop.lexeme) stop

mutual

/-- Reads operands that are joined by the operators of the given levels. -/
def level (stop : Token) (levels : List (List BinaryOp)) (ts : List Token) :
    Except Diagnostic (Parsed Expr ts.length) :=
  match levels with
  | [] => unary stop ts
  | ops :: tighter => do
    let first ← level stop tighter ts
    let all ← levelTail stop ops tighter first.value first.last first.rest
    return all.weaken first.shorter
termination_by 10 * ts.length + levels.length + 2
decreasing_by
  · simp only [List.length_nil]; omega
  · simp only [List.length_cons]; omega
  · have := first.shorter
    simp only [List.length_cons]; omega

/-- Reads the further operands of one level, after the operand on their left. -/
def levelTail (stop : Token) (ops : List BinaryOp) (tighter : List (List BinaryOp)) (left : Expr)
    (last : Token) (ts : List Token) : Except Diagnostic (Parsed Expr (ts.length + 1)) :=
  match ts with
  | [] => return ⟨left, last, [], Nat.zero_lt_one⟩
  | t :: rest =>
    match binaryOp? ops t with
    | none => return ⟨left, last, t :: rest, Nat.lt_succ_self _⟩
    | some op => do
      requireOperand stop t rest
      let right ← level stop tighter rest
      let all ←
        levelTail stop ops tighter (joinOperands op t left right.value) right.last right.rest
      return all.weaken (by have := right.shorter; simp only [List.length_cons]; omega)
termination_by 10 * ts.length + tighter.length
decreasing_by
  · simp only [List.length_cons]; omega
  · have := right.shorter
    simp only [List.length_cons]; omega

def unary (stop : Token) (ts : List Token) : Except Diagnostic (Parsed Expr ts.length) :=
  match ts with
  | [] => .error (noOperand stop)
  | t :: rest =>
    match unaryOp? t rest with
    | none => primary stop t rest
    | some op => do
      requireOperand stop t rest
      let operand ← unary stop rest
      return ⟨.unary op operand.value ⟨t.span.join operand.value.mark.span, t.line⟩,
        operand.last, operand.rest, Nat.lt_succ_of_lt operand.shorter⟩
termination_by 10 * ts.length + 1
decreasing_by
  · simp only [List.length_cons]; omega
  · simp only [List.length_cons]; omega

def primary (stop t : Token) (rest : List Token) :
    Except Diagnostic (Parsed Expr (rest.length + 1)) :=
  match literal? t with
  | some value => do
    return ⟨.literal (← value) t.mark, t, rest, length_lt_cons t rest⟩
  | none =>
    match t.kind with
    | .identifier => return ⟨.name t.lexeme t.mark, t, rest, length_lt_cons t rest⟩
    | .symbol .leftParen =>
      match rest with
      | [] => .error (noOperand stop)
      | r :: others => do
        if r.kind = .symbol .rightParen then
          throw ⟨.grammatical .emptyParentheses, ⟨t.span.join r.span, t.line⟩⟩
        let inner ← level stop BinaryOp.levels (r :: others)
        let close ←
          expect stop (.symbol .rightParen) .closingParenthesis inner.last inner.rest
        return ⟨inner.value, close.last, close.rest,
          Nat.lt_trans close.shorter (Nat.lt_succ_of_lt inner.shorter)⟩
    | .symbol s =>
      match symbolText? s with
      | some text => return ⟨.literal (.text text) t.mark, t, rest, length_lt_cons t rest⟩
      | none => .error (blame (.notExpression t.kind t.lexeme) t)
    | _ => .error (blame (.notExpression t.kind t.lexeme) t)
termination_by 10 * rest.length + 10
decreasing_by
  have : BinaryOp.levels.length = 6 := rfl
  omega

end

def expression (stop : Token) (ts : List Token) : Except Diagnostic (Parsed Expr ts.length) :=
  level stop BinaryOp.levels ts

end Parse

end BisayaPlus
