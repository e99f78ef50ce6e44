import BisayaPlus.Program.Statement

/-!
Reading by a cursor. The whole list of tokens is kept, and a position in it is moved. Nothing is cut
off behind the token that ends the program, so a step might look beyond it. There is no result if a
position outside the list is read. A reader that calls itself has a budget for its calls, and there
is no result if that is spent. The steps of the readers are a parameter, so the same readers can
also be made of steps that check what they do.
-/

namespace BisayaPlus

abbrev Cursor (α : Type) :=
  ReaderT (List Token) (StateT Nat (ExceptT Diagnostic Option)) α

namespace Cursor

open Parse

/-- What the readers are made of: the token at a position, if there is one, the token that stands
next, the one in front of it, a move by one token, and a way to require that a reader moves. -/
structure Steps where
  token? : Nat → Cursor (Option Token)
  peek : Cursor Token
  previous : Cursor Token
  move : Cursor Unit
  forward : {α : Type} → Cursor α → Cursor α

def spent {α : Type} : Cursor α := fun _ _ => none

def token (i : Nat) : Cursor Token := fun tokens pos =>
  tokens[i]?.map fun t => .ok (t, pos)

/-- Steps that check nothing. Behind the end of the list the last token stands next. -/
def Steps.plain : Steps where
  token? i := do return (← read)[i]?
  peek := do token (min (← get) ((← read).length - 1))
  previous := do token ((← get) - 1)
  move := modify (· + 1)
  forward act := act

@[simp] theorem Steps.forward_plain {α : Type} (act : Cursor α) : plain.forward act = act := rfl

section Readers

variable (k : Steps)

def atSourceEnd : Cursor Bool := do
  return (← k.peek).kind == .sourceEnd

/-- Moves over the next token and returns it. At the end of the source nothing moves, and the token
in front of it is returned. -/
def advance : Cursor Token := do
  unless ← atSourceEnd k do
    k.move
  k.previous

def check (kind : Token.Kind) : Cursor Bool := do
  if ← atSourceEnd k then
    return false
  else
    return (← k.peek).kind == kind

def accept (kind : Token.Kind) : Cursor Bool := do
  if ← check k kind then
    let _ ← advance k
    return true
  else
    return false

def atBodyEnd : Cursor Bool := do
  return (← check k (.keyword .katapusan)) || (← atSourceEnd k)

def atNameBefore (s : Symbol) : Cursor Bool := do
  if ← check k .identifier then
    return (← k.token? ((← get) + 1)).any (·.isSymbol s)
  else
    return false

/-- The place of a fault. At the end of the source it is the byte after the last token. -/
def faultSpan : Cursor Span := do
  let i ← get
  if (← atSourceEnd k) && 0 < i then
    return (← k.previous).span.next
  else
    return (← k.peek).span

def consume (kind : Token.Kind) (what : Expectation) : Cursor Token := do
  if ← check k kind then
    advance k
  else
    let t ← k.peek
    let found := if t.kind = .sourceEnd then none else some t.lexeme
    throw ⟨.grammatical (.expected what found), ⟨← faultSpan k, t.line⟩⟩

def startsOperandAt (i : Nat) : Cursor Bool := do
  match ← k.token? i with
  | none => return false
  | some t =>
    match t.kind with
    | .number | .text | .character | .boolean => return true
    | .identifier => return !((← k.token? (i + 1)).any (·.isSymbol .equal))
    | .symbol s => return s == .leftParen || s == .plus || s == .minus || (symbolText? s).isSome
    | _ => return false

/-- The word for false negates if an operand follows it. -/
def atNot : Cursor Bool := do
  let t ← k.peek
  if t.kind == .boolean && t.lexeme == Value.falseWord then
    startsOperandAt k ((← get) + 1)
  else
    return false

def requireOperand (operator : Token) : Cursor Unit := do
  if ← startsOperandAt k (← get) then
    return ()
  else
    throw (blame (.missingOperand operator.lexeme) (← k.peek))

def acceptBinary (ops : List BinaryOp) : Cursor (Option BinaryOp) := do
  match binaryOp? ops (← k.peek) with
  | none => return none
  | some op =>
    let _ ← advance k
    return some op

def acceptUnary : Cursor (Option UnaryOp) := do
  if ← accept k (.symbol .minus) then
    return some .negate
  else if ← accept k (.symbol .plus) then
    return some .plus
  else if ← atNot k then
    let _ ← advance k
    return some .not
  else
    return none

mutual

def level (levels : List (List BinaryOp)) : Nat → Cursor Expr
  | 0 => spent
  | budget + 1 => k.forward do
    match levels with
    | [] => unary budget
    | ops :: tighter => levelTail ops tighter (← level tighter budget) budget

def levelTail (ops : List BinaryOp) (tighter : List (List BinaryOp)) (left : Expr) :
    Nat → Cursor Expr
  | 0 => spent
  | budget + 1 => do
    match ← acceptBinary k ops with
    | none => return left
    | some op =>
      let operator ← k.previous
      requireOperand k operator
      let right ← level tighter budget
      levelTail ops tighter (joinOperands op operator left right) budget

def unary : Nat → Cursor Expr
  | 0 => spent
  | budget + 1 => k.forward do
    match ← acceptUnary k with
    | none => primary budget
    | some op =>
      let operator ← k.previous
      requireOperand k operator
      let operand ← unary budget
      return .unary op operand ⟨operator.span.join operand.mark.span, operator.line⟩

def primary : Nat → Cursor Expr
  | 0 => spent
  | budget + 1 => k.forward do
    if ← atSourceEnd k then
      throw (blame .missingExpression (← k.peek))
    else
      let t ← advance k
      match literal? t with
      | some value => return .literal (← liftExcept value) t.mark
      | none =>
        match t.kind with
        | .identifier => return .name t.lexeme t.mark
        | .symbol .leftParen =>
          if ← check k (.symbol .rightParen) then
            throw ⟨.grammatical .emptyParentheses, ⟨t.span.join (← k.peek).span, t.line⟩⟩
          else
            let inner ← level BinaryOp.levels budget
            let _ ← consume k (.symbol .rightParen) .closingParenthesis
            return inner
        | .symbol s =>
          match symbolText? s with
          | some text => return .literal (.text text) t.mark
          | none => throw (blame (.notExpression t.kind t.lexeme) t)
        | _ => throw (blame (.notExpression t.kind t.lexeme) t)

end

def expression (budget : Nat) : Cursor Expr :=
  level k BinaryOp.levels budget

def sign : Cursor (Option Number) := do
  if ← accept k (.symbol .minus) then
    return some (Number.ofNat 1).neg
  else if ← accept k (.symbol .plus) then
    return some (.ofNat 1)
  else
    return none

def initialValue : Cursor Value := k.forward do
  let factor ← sign k
  let t ← advance k
  match signedLiteral? factor t with
  | some value => liftExcept value
  | none => throw (notLiteral t)

def initializer : Cursor (Option Value) := do
  if ← accept k (.symbol .equal) then
    return some (← initialValue k)
  else
    return none

def declarator (type : DataType) : Cursor Declarator := do
  let name ← consume k .identifier (.declaredName type)
  let initial ← initializer k
  return ⟨name.lexeme, initial, ⟨name.span.join (← k.previous).span, name.line⟩⟩

def declarators (single : Bool) (type : DataType) : Nat → Cursor (List Declarator)
  | 0 => spent
  | budget + 1 => do
    let first ← declarator k type
    if single then
      return [first]
    else if ← accept k (.symbol .comma) then
      return first :: (← declarators single type budget)
    else
      return [first]

def declaration (single : Bool) (budget : Nat) : Cursor Stmt := k.forward do
  let start ← k.previous
  let t ← advance k
  match DataType.ofKind? t.kind with
  | none => throw (blame (.notDataType t.lexeme) t)
  | some type =>
    let ds ← declarators k single type budget
    return .declaration type ds (start.span.join (← k.previous).span)

def furtherTargets : Nat → Cursor (List String)
  | 0 => spent
  | budget + 1 => do
    if ← atNameBefore k .equal then
      let t ← advance k
      let _ ← advance k
      return t.lexeme :: (← furtherTargets budget)
    else
      return []

def assignment (budget : Nat) : Cursor Assignment := k.forward do
  let first ← consume k .identifier .assignedName
  let _ ← consume k (.symbol .equal) (.equalSign first.lexeme)
  let more ← furtherTargets k budget
  let value ← expression k budget
  return ⟨first.lexeme :: more, value, ⟨first.span.join value.mark.span, first.line⟩⟩

def outputValues : Nat → Cursor (List Expr)
  | 0 => spent
  | budget + 1 => do
    let first ← expression k budget
    if ← accept k (.symbol .ampersand) then
      return first :: (← outputValues budget)
    else
      return [first]

def output (budget : Nat) : Cursor Stmt := do
  let start ← k.previous
  let _ ← consume k (.symbol .colon) .outputColon
  let values ← outputValues k budget
  return .output values (start.span.join (← k.previous).span)

def inputTargets : Nat → Cursor (List String)
  | 0 => spent
  | budget + 1 => do
    let name ← consume k .identifier .inputName
    if ← accept k (.symbol .comma) then
      return name.lexeme :: (← inputTargets budget)
    else
      return [name.lexeme]

def input (budget : Nat) : Cursor Stmt := do
  let start ← k.previous
  let _ ← consume k (.symbol .colon) .inputColon
  let targets ← inputTargets k budget
  return .input targets ⟨start.span.join (← k.previous).span, start.line⟩

def loopIncrement (budget : Nat) : Cursor Assignment := do
  if ← atNameBefore k .increment then
    let name ← advance k
    let operator ← advance k
    return incrementOf name operator
  else
    assignment k budget

def loopInitializer (budget : Nat) : Cursor Stmt := do
  if ← accept k (.keyword .mugna) then
    declaration k true budget
  else if ← check k .identifier then
    return .assignment (← assignment k budget)
  else
    let t ← k.peek
    throw (blame (.notInitializer t.lexeme) t)

def loopHeader (budget : Nat) : Cursor LoopHeader := do
  let _ ← consume k (.symbol .leftParen) .headerStart
  let initializer ← loopInitializer k budget
  let _ ← consume k (.symbol .comma) .initializerComma
  let condition ← expression k budget
  let _ ← consume k (.symbol .comma) .conditionComma
  let increment ← loopIncrement k budget
  let _ ← consume k (.symbol .rightParen) .headerEnd
  return ⟨initializer, condition, increment⟩

mutual

def statement : Nat → Cursor Stmt
  | 0 => spent
  | budget + 1 => k.forward do
    let t ← k.peek
    match t.kind with
    | .keyword .mugna =>
      let _ ← advance k
      declaration k false budget
    | .identifier => return .assignment (← assignment k budget)
    | .keyword .ipakita =>
      let _ ← advance k
      output k budget
    | .keyword .dawat =>
      let _ ← advance k
      input k budget
    | .keyword .kung =>
      let _ ← advance k
      conditional budget
    | .keyword .alang =>
      let _ ← advance k
      loop budget
    | .keyword .kungDili => throw (blame (.strayClause .kungDili) t)
    | .keyword .kungWala => throw (blame (.strayClause .kungWala) t)
    | .sourceEnd => throw (blame .missingStatement t)
    | _ => throw (blame (.notStatement t.lexeme) t)

def conditional : Nat → Cursor Stmt
  | 0 => spent
  | budget + 1 => do
    let start ← k.previous
    let first ← branch .kung budget
    let others ← branches budget
    if ← accept k (.keyword .kungWala) then
      let otherwise ← block .kungWala budget
      return .conditional first others (some otherwise) (start.span.join (← k.previous).span)
    else
      return .conditional first others none (start.span.join (← k.previous).span)

def branches : Nat → Cursor (List Branch)
  | 0 => spent
  | budget + 1 => do
    if ← accept k (.keyword .kungDili) then
      let first ← branch .kungDili budget
      return first :: (← branches budget)
    else
      return []

def branch (owner : Owner) : Nat → Cursor Branch
  | 0 => spent
  | budget + 1 => do
    if ← check k (.symbol .leftParen) then
      let condition ← expression k budget
      let body ← block owner budget
      return .mk condition body
    else
      throw (blame (.bareCondition owner) (← k.peek))

def loop : Nat → Cursor Stmt
  | 0 => spent
  | budget + 1 => do
    let start ← k.previous
    let _ ← consume k (.keyword .sa) .loopWord
    let header ← loopHeader k budget
    let body ← block .alangSa budget
    return .loop header.initializer header.condition header.increment body
      (start.span.join body.span)

def block (owner : Owner) : Nat → Cursor Block
  | 0 => spent
  | budget + 1 => k.forward do
    let start ← consume k (.keyword .pundok) (.blockWord owner)
    let _ ← consume k (.symbol .leftBrace) .blockStart
    let body ← statements budget
    let close ← consume k (.symbol .rightBrace) (.blockEnd owner)
    return .mk body (start.span.join close.span)

def statements : Nat → Cursor (List Stmt)
  | 0 => spent
  | budget + 1 => do
    if (← check k (.symbol .rightBrace)) || (← atBodyEnd k) then
      return []
    else
      let first ← statement budget
      return first :: (← statements budget)

end

def body : Nat → Cursor (List Stmt)
  | 0 => spent
  | budget + 1 => do
    if ← atBodyEnd k then
      return []
    else
      let first ← statement k budget
      return first :: (← body budget)

/-- The last keyword of a program. The token behind it is looked at, which has no effect. -/
def programEnd : Cursor Unit := do
  let _ ← consume k (.keyword .katapusan) .programEnd
  unless ← atSourceEnd k do
    let _ ← k.peek

def program (budget : Nat) : Cursor Program := do
  let _ ← consume k (.keyword .sugod) .programStart
  let statements ← body k budget
  programEnd k
  return ⟨statements⟩

end Readers

/-- A budget for reading a list of tokens. Readers call each other at most ten times between two
moves, and a few times at the end. -/
def enough (tokens : List Token) : Nat :=
  10 * tokens.length + 12

end Cursor

def Program.byCursor (tokens : List Token) : Option (Except Diagnostic Program) :=
  (Cursor.program .plain (Cursor.enough tokens) tokens 0).run.map fun r => r.map Prod.fst

end BisayaPlus
