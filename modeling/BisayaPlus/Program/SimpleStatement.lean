import BisayaPlus.Number.Arithmetic
import BisayaPlus.Program.Expression

/-!
Reading the statements that hold no other statements, and the header of a loop. A statement has no
mark at its end, so every list in it ends where its separator is missing.
-/

namespace BisayaPlus

def DataType.ofKind? : Token.Kind → Option DataType
  | .keyword .numero => some .numero
  | .keyword .letra => some .letra
  | .keyword .tinuod => some .tinuod
  | .keyword .tipik => some .tipik
  | _ => none

structure LoopHeader where
  initializer : Stmt
  condition : Expr
  increment : Assignment

namespace Parse

def notLiteral (t : Token) : Diagnostic :=
  blame (.notLiteral t.lexeme) t

def factor? (t : Token) : Option Number :=
  if t.kind = .symbol .minus then
    some (Number.ofNat 1).neg
  else if t.kind = .symbol .plus then
    some (.ofNat 1)
  else
    none

/-- The value of a literal behind an optional sign. A number is multiplied by the factor, which is
one if there is no sign, and no other literal can have a sign. -/
def signedLiteral? (factor : Option Number) (t : Token) : Option (Except Diagnostic Value) :=
  if t.kind = .number then
    some ((number t).map fun n => .number (n.mul (factor.getD (.ofNat 1))))
  else if factor.isSome then
    none
  else
    literal? t

def signedLiteral (stop last : Token) (factor : Option Number) :
    (ts : List Token) → Except Diagnostic (Parsed Value ts.length)
  | [] => .error (notLiteral (taken stop last []))
  | t :: rest =>
    match signedLiteral? factor t with
    | some value => do return ⟨← value, t, rest, length_lt_cons t rest⟩
    | none => .error (notLiteral t)

def initialValue (stop last : Token) :
    (ts : List Token) → Except Diagnostic (Parsed Value ts.length)
  | [] => signedLiteral stop last none []
  | t :: rest =>
    match factor? t with
    | some factor => do
      return (← signedLiteral stop t (some factor) rest).weaken (Nat.le_succ _)
    | none => signedLiteral stop last none (t :: rest)

def declarator (stop : Token) (type : DataType) (last : Token) (ts : List Token) :
    Except Diagnostic (Parsed Declarator ts.length) := do
  let name ← expect stop .identifier (.declaredName type) last ts
  match accept (.symbol .equal) name.rest with
  | none => return name.map fun t => ⟨t.lexeme, none, t.mark⟩
  | some equal =>
    let initial ← initialValue stop equal.last equal.rest
    return ⟨⟨name.value.lexeme, some initial.value,
        ⟨name.value.span.join initial.last.span, name.value.line⟩⟩,
      initial.last, initial.rest,
      Nat.lt_trans initial.shorter (Nat.lt_trans equal.shorter name.shorter)⟩

def declarators (stop : Token) (type : DataType) (last : Token) (ts : List Token) :
    Except Diagnostic (Parsed (List Declarator) ts.length) := do
  let first ← declarator stop type last ts
  match accept (.symbol .comma) first.rest with
  | none => return first.map fun d => [d]
  | some comma =>
    let others ← declarators stop type comma.last comma.rest
    return ⟨first.value :: others.value, others.last, others.rest,
      Nat.lt_trans others.shorter (Nat.lt_trans comma.shorter first.shorter)⟩
termination_by ts.length
decreasing_by exact Nat.lt_trans comma.shorter first.shorter

/-- Reads a declaration after its keyword. In the header of a loop it has a single declarator,
since the commas there separate the clauses. -/
def declaration (single : Bool) (stop start : Token) :
    (ts : List Token) → Except Diagnostic (Parsed Stmt ts.length)
  | [] => .error (noType (taken stop start []))
  | t :: rest =>
    match DataType.ofKind? t.kind with
    | none => .error (noType t)
    | some type => do
      let list ←
        if single then
          (declarator stop type t rest).map (·.map fun d => [d])
        else
          declarators stop type t rest
      return (list.map fun ds => Stmt.declaration type ds (start.span.join list.last.span)).weaken
        (Nat.le_succ _)
where
  noType (t : Token) : Diagnostic := blame (.notDataType t.lexeme) t

def furtherTargets (last : Token) : (ts : List Token) → Parsed (List String) (ts.length + 1)
  | [] => ⟨[], last, [], Nat.zero_lt_one⟩
  | [t] => ⟨[], last, [t], Nat.one_lt_two⟩
  | t :: equal :: rest =>
    if t.kind = .identifier ∧ equal.kind = .symbol .equal then
      let more := furtherTargets equal rest
      ⟨t.lexeme :: more.value, more.last, more.rest,
        Nat.lt_succ_of_lt (Nat.lt_succ_of_lt more.shorter)⟩
    else
      ⟨[], last, t :: equal :: rest, Nat.lt_succ_self _⟩

def assignment (stop last : Token) (ts : List Token) :
    Except Diagnostic (Parsed Assignment ts.length) := do
  let first ← expect stop .identifier .assignedName last ts
  let equal ← expect stop (.symbol .equal) (.equalSign first.value.lexeme) first.last first.rest
  let more := furtherTargets equal.last equal.rest
  let value ← expression stop more.rest
  return ⟨⟨first.value.lexeme :: more.value, value.value,
      ⟨first.value.span.join value.value.mark.span, first.value.line⟩⟩,
    value.last, value.rest,
    Nat.lt_trans (Nat.lt_of_lt_of_le value.shorter (Nat.le_of_lt_succ more.shorter))
      (Nat.lt_trans equal.shorter first.shorter)⟩

def outputValues (stop : Token) (ts : List Token) :
    Except Diagnostic (Parsed (List Expr) ts.length) := do
  let first ← expression stop ts
  match accept (.symbol .ampersand) first.rest with
  | none => return first.map fun e => [e]
  | some ampersand =>
    let others ← outputValues stop ampersand.rest
    return ⟨first.value :: others.value, others.last, others.rest,
      Nat.lt_trans others.shorter (Nat.lt_trans ampersand.shorter first.shorter)⟩
termination_by ts.length
decreasing_by exact Nat.lt_trans ampersand.shorter first.shorter

def output (stop start : Token) (ts : List Token) :
    Except Diagnostic (Parsed Stmt ts.length) := do
  let colon ← expect stop (.symbol .colon) .outputColon start ts
  let values ← outputValues stop colon.rest
  return (values.map fun es => Stmt.output es (start.span.join values.last.span)).weaken
    (Nat.le_of_lt colon.shorter)

def inputTargets (stop last : Token) (ts : List Token) :
    Except Diagnostic (Parsed (List String) ts.length) := do
  let first ← expect stop .identifier .inputName last ts
  match accept (.symbol .comma) first.rest with
  | none => return first.map fun t => [t.lexeme]
  | some comma =>
    let others ← inputTargets stop comma.last comma.rest
    return ⟨first.value.lexeme :: others.value, others.last, others.rest,
      Nat.lt_trans others.shorter (Nat.lt_trans comma.shorter first.shorter)⟩
termination_by ts.length
decreasing_by exact Nat.lt_trans comma.shorter first.shorter

def input (stop start : Token) (ts : List Token) :
    Except Diagnostic (Parsed Stmt ts.length) := do
  let colon ← expect stop (.symbol .colon) .inputColon start ts
  let names ← inputTargets stop colon.last colon.rest
  return (names.map fun targets =>
      Stmt.input targets ⟨start.span.join names.last.span, start.line⟩).weaken
    (Nat.le_of_lt colon.shorter)

/-- The assignment that a name with two plus signs after it stands for. -/
def incrementOf (name operator : Token) : Assignment :=
  let one := Expr.literal (.number (.ofNat 1)) operator.mark
  let span := name.span.join operator.span
  ⟨[name.lexeme], .binary .add (.name name.lexeme name.mark) one ⟨span, operator.line⟩,
    ⟨span, name.line⟩⟩

def loopIncrement (stop last : Token) :
    (ts : List Token) → Except Diagnostic (Parsed Assignment ts.length)
  | name :: operator :: rest =>
    if name.kind = .identifier ∧ operator.kind = .symbol .increment then
      .ok ⟨incrementOf name operator, operator, rest, Nat.lt_succ_of_lt (Nat.lt_succ_self _)⟩
    else
      assignment stop last (name :: operator :: rest)
  | ts => assignment stop last ts

def loopInitializer (stop last : Token) (ts : List Token) :
    Except Diagnostic (Parsed Stmt ts.length) :=
  match accept (.keyword .mugna) ts with
  | some start => do
    return (← declaration true stop start.value start.rest).weaken (Nat.le_of_lt start.shorter)
  | none =>
    if (accept .identifier ts).isSome then do
      return (← assignment stop last ts).map Stmt.assignment
    else
      .error (blame (.notInitializer (next stop ts).lexeme) (next stop ts))

def loopHeader (stop last : Token) (ts : List Token) :
    Except Diagnostic (Parsed LoopHeader ts.length) := do
  let start ← expect stop (.symbol .leftParen) .headerStart last ts
  let initializer ← loopInitializer stop start.last start.rest
  let comma ←
    expect stop (.symbol .comma) .initializerComma initializer.last initializer.rest
  let condition ← expression stop comma.rest
  let comma' ← expect stop (.symbol .comma) .conditionComma condition.last condition.rest
  let increment ← loopIncrement stop comma'.last comma'.rest
  let close ← expect stop (.symbol .rightParen) .headerEnd increment.last increment.rest
  return ⟨⟨initializer.value, condition.value, increment.value⟩, close.last, close.rest, by
    have := start.shorter
    have := initializer.shorter
    have := comma.shorter
    have := condition.shorter
    have := comma'.shorter
    have := increment.shorter
    have := close.shorter
    omega⟩

end Parse

end BisayaPlus
