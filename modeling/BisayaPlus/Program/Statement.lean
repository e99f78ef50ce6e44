import BisayaPlus.Program.SimpleStatement

/-!
Reading statements, the blocks that they hold, and programs. The body of a program ends at the
first closing keyword or at the end of the source, and nothing after that is looked at.
-/

namespace BisayaPlus

namespace Parse

mutual

def statement (stop last : Token) (ts : List Token) :
    Except Diagnostic (Parsed Stmt ts.length) :=
  match ts with
  | [] => .error (blame .missingStatement stop)
  | t :: rest =>
    match t.kind with
    | .keyword .mugna => do
      return (← declaration false stop t rest).weaken (Nat.le_succ _)
    | .identifier => do
      return (← assignment stop last (t :: rest)).map Stmt.assignment
    | .keyword .ipakita => do
      return (← output stop t rest).weaken (Nat.le_succ _)
    | .keyword .dawat => do
      return (← input stop t rest).weaken (Nat.le_succ _)
    | .keyword .kung => do
      return (← conditional stop t rest).weaken (Nat.le_succ _)
    | .keyword .alang => do
      return (← loop stop t rest).weaken (Nat.le_succ _)
    | .keyword .kungDili => .error (blame (.strayClause .kungDili) t)
    | .keyword .kungWala => .error (blame (.strayClause .kungWala) t)
    | _ => .error (blame (.notStatement t.lexeme) t)
termination_by 4 * ts.length + 2
decreasing_by all_goals (simp only [List.length_cons]; omega)

def conditional (stop start : Token) (ts : List Token) :
    Except Diagnostic (Parsed Stmt ts.length) := do
  let first ← branch stop .kung ts
  let others ← branches stop first.last first.rest
  match accept (.keyword .kungWala) others.rest with
  | none =>
    return ⟨.conditional first.value others.value none (start.span.join others.last.span),
      others.last, others.rest,
      Nat.lt_of_lt_of_le others.shorter first.shorter⟩
  | some word =>
    let otherwise ← block stop .kungWala word.last word.rest
    return ⟨.conditional first.value others.value (some otherwise.value)
        (start.span.join otherwise.last.span),
      otherwise.last, otherwise.rest, by
        have := first.shorter
        have := others.shorter
        have := word.shorter
        have := otherwise.shorter
        omega⟩
termination_by 4 * ts.length + 2
decreasing_by
  · omega
  · have := first.shorter
    omega
  · have := first.shorter
    have := others.shorter
    have := word.shorter
    omega

def branches (stop last : Token) (ts : List Token) :
    Except Diagnostic (Parsed (List Branch) (ts.length + 1)) :=
  match accept (.keyword .kungDili) ts with
  | none => return ⟨[], last, ts, Nat.lt_succ_self _⟩
  | some word => do
    let first ← branch stop .kungDili word.rest
    let others ← branches stop first.last first.rest
    return ⟨first.value :: others.value, others.last, others.rest, by
      have := word.shorter
      have := first.shorter
      have := others.shorter
      omega⟩
termination_by 4 * ts.length
decreasing_by
  · have := word.shorter
    omega
  · have := word.shorter
    have := first.shorter
    omega

/-- Reads a condition and its block. A condition begins with a parenthesis but may go on after
the closing one. -/
def branch (stop : Token) (owner : Owner) (ts : List Token) :
    Except Diagnostic (Parsed Branch ts.length) := do
  if !atSymbol .leftParen ts then
    throw (blame (.bareCondition owner) (next stop ts))
  let condition ← expression stop ts
  let body ← block stop owner condition.last condition.rest
  return ⟨.mk condition.value body.value, body.last, body.rest,
    Nat.lt_trans body.shorter condition.shorter⟩
termination_by 4 * ts.length + 1
decreasing_by
  have := condition.shorter
  omega

def loop (stop start : Token) (ts : List Token) :
    Except Diagnostic (Parsed Stmt ts.length) := do
  let word ← expect stop (.keyword .sa) .loopWord start ts
  let header ← loopHeader stop word.last word.rest
  let body ← block stop .alangSa header.last header.rest
  return ⟨.loop header.value.initializer header.value.condition header.value.increment
      body.value (start.span.join body.value.span),
    body.last, body.rest,
    Nat.lt_trans body.shorter (Nat.lt_trans header.shorter word.shorter)⟩
termination_by 4 * ts.length + 2
decreasing_by
  have := word.shorter
  have := header.shorter
  omega

def block (stop : Token) (owner : Owner) (last : Token) (ts : List Token) :
    Except Diagnostic (Parsed Block ts.length) := do
  let word ← expect stop (.keyword .pundok) (.blockWord owner) last ts
  let start ← expect stop (.symbol .leftBrace) .blockStart word.last word.rest
  let body ← statements stop start.last start.rest
  let close ← expect stop (.symbol .rightBrace) (.blockEnd owner) body.last body.rest
  return ⟨.mk body.value (word.value.span.join close.value.span), close.last, close.rest, by
    have := word.shorter
    have := start.shorter
    have := body.shorter
    have := close.shorter
    omega⟩
termination_by 4 * ts.length
decreasing_by
  have := word.shorter
  have := start.shorter
  omega

/-- Reads statements up to a closing brace or the stop. -/
def statements (stop last : Token) (ts : List Token) :
    Except Diagnostic (Parsed (List Stmt) (ts.length + 1)) :=
  if ts.isEmpty || atSymbol .rightBrace ts then
    return ⟨[], last, ts, Nat.lt_succ_self _⟩
  else do
    let first ← statement stop last ts
    let others ← statements stop first.last first.rest
    return ⟨first.value :: others.value, others.last, others.rest, by
      have := first.shorter
      have := others.shorter
      omega⟩
termination_by 4 * ts.length + 3
decreasing_by
  · omega
  · have := first.shorter
    omega

end

end Parse

namespace Program

def endsBody (t : Token) : Bool :=
  t.kind == .keyword .katapusan || t.kind == .sourceEnd

/-- The first token that ends the body. If there is none, the source ends behind the last token,
which without further tokens is the given one. -/
def bodyEnd (last : Token) : List Token → Token
  | [] => ⟨.sourceEnd, "", ⟨last.span.stop, last.span.stop⟩, last.line⟩
  | t :: rest => if endsBody t then t else bodyEnd t rest

def afterStart (start : Token) (ts : List Token) : Except Diagnostic Program := do
  let stop := bodyEnd start ts
  let body ← Parse.statements stop start (ts.takeWhile (!endsBody ·))
  match body.rest with
  | t :: _ => throw (Parse.blame (.notStatement t.lexeme) t)
  | [] =>
    if stop.kind = .keyword .katapusan then
      return ⟨body.value⟩
    else
      throw (Parse.unmet stop body.last .programEnd [])

/-- The program that a list of tokens spells. -/
def ofTokens : List Token → Except Diagnostic Program
  | [] => .error ⟨.grammatical (.expected .programStart none), ⟨⟨0, 0⟩, 1⟩⟩
  | t :: rest =>
    if t.kind = .keyword .sugod then
      afterStart t rest
    else if t.kind = .sourceEnd then
      .error (Parse.blame (.expected .programStart none) t)
    else
      .error (Parse.blame (.expected .programStart (some t.lexeme)) t)

end Program

end BisayaPlus
