import BisayaPlus.Console
import BisayaPlus.Operation

/-!
Running statements on a machine, which is a store and a console. What a statement did before it
failed stays done. Each loop may test its condition as often as the budget says, and one that would
test it once more interrupts the run.
-/

namespace BisayaPlus

structure Machine where
  store : Store
  console : Console

def Machine.start (console : Console) : Machine :=
  ⟨.empty, console⟩

inductive Interrupt where
  | fault (diagnostic : Diagnostic)
  | budgetSpent

/-- A change of the machine that may end early. -/
abbrev Action := EStateM Interrupt Machine

namespace Action

def fail {α : Type} (fault : Fault) (mark : Mark) : Action α :=
  throw (.fault ⟨fault, mark⟩)

def ofStore {α : Type} (f : Store → Except Diagnostic α) : Action α := fun m =>
  match f m.store with
  | .ok a => .ok a m
  | .error d => .error (.fault d) m

def onStore (f : Store → Except NameFault Store) (mark : Mark) : Action Unit := fun m =>
  match f m.store with
  | .ok s => .ok () { m with store := s }
  | .error fault => .error (.fault ⟨.naming fault, mark⟩) m

def assignAll (names : List String) (v : Value) (mark : Mark) : Action Unit :=
  names.forM fun name => onStore (·.assign name v) mark

/-- Takes turns as long as the test holds. The budget bounds the number of tests. -/
def repeatWhile (test : Action Bool) (turn : Action Unit) : (budget : Nat) → Action Unit
  | 0 => throw .budgetSpent
  | budget + 1 => do
    if ← test then
      turn
      repeatWhile test turn budget

end Action

def Declarator.exec (type : DataType) (d : Declarator) : Action Unit := do
  let v ← Action.ofStore fun _ =>
    match d.initializer with
    | some v => (type.initial d.name v).mapError fun f => ⟨.typing f, d.mark⟩
    | none => .ok type.zeroValue
  Action.onStore (·.declare d.name v) d.mark

def Assignment.exec (a : Assignment) : Action Unit := do
  let v ← Action.ofStore a.value.eval
  Action.assignAll a.targets v a.mark

namespace Action

/-- The line of an output statement is named by its first value. -/
def outputMark (values : List Expr) (span : Span) : Mark :=
  ⟨span, (values.head?.map (·.mark.line)).getD 0⟩

def write (line : String) : Action (Except String Unit) := do
  let m ← get
  let (answer, console) := m.console.write line
  set { m with console }
  return answer

def output (values : List Expr) (span : Span) : Action Unit := do
  let vs ← ofStore fun s => values.mapM (·.eval s)
  match ← write (String.join (vs.map Value.display) ++ "\n") with
  | .ok () => return ()
  | .error reason => fail (.runtime (.unwritten reason)) (outputMark values span)

/-- The next line of input as a text. It is used up even if it is none. -/
def readLine (targets : List String) (mark : Mark) : Action String := do
  let m ← get
  let (line, console) := m.console.readLine
  set { m with console }
  match Text.decode? line with
  | none => fail (.runtime .undecodableLine) mark
  | some text =>
    if text.isEmpty then
      fail (.runtime (.endOfInput targets)) mark
    return text

/-- Gives each name the value of its piece. Further pieces are not used. -/
def assignPieces (targets : List String) (pieces : List (List Char)) (mark : Mark) :
    Action Unit :=
  (targets.zip pieces).forM fun (name, piece) => onStore (·.assign name (.ofPiece piece)) mark

/-- Reads one line for the targets. An unknown name is found before anything is read. -/
def input (targets : List String) (mark : Mark) : Action Unit := do
  let m ← get
  match targets.find? (!m.store.contains ·) with
  | some name => fail (.naming (.undeclared name)) mark
  | none =>
    let pieces := Console.pieces (← readLine targets mark)
    if pieces.length < targets.length then
      fail (.runtime (.tooFewPieces targets pieces.length)) mark
    assignPieces targets pieces mark

end Action

mutual

def Stmt.exec (budget : Nat) : Stmt → Action Unit
  | .declaration type declarators _ => declarators.forM (·.exec type)
  | .assignment a => a.exec
  | .output values span => Action.output values span
  | .input targets mark => Action.input targets mark
  | .conditional first others otherwise _ =>
    Branch.exec budget first
      (Branch.execAll budget others (Block.execOptional budget otherwise))
  | .loop initializer condition increment body _ => do
    Stmt.exec budget initializer
    Action.repeatWhile (Action.ofStore fun s => condition.test s)
      (do Block.exec budget body; increment.exec) budget

def Branch.exec (budget : Nat) : Branch → Action Unit → Action Unit
  | .mk condition body, alternative => do
    if ← Action.ofStore fun s => condition.test s then
      Block.exec budget body
    else
      alternative

/-- Runs the block of the first branch whose condition holds, and the alternative if none does. -/
def Branch.execAll (budget : Nat) : List Branch → Action Unit → Action Unit
  | [], alternative => alternative
  | b :: others, alternative => Branch.exec budget b (Branch.execAll budget others alternative)

/-- Runs a block. It is not a scope. -/
def Block.exec (budget : Nat) : Block → Action Unit
  | .mk statements _ => Stmt.execAll budget statements

def Block.execOptional (budget : Nat) : Option Block → Action Unit
  | none => pure ()
  | some b => Block.exec budget b

/-- Runs statements in their order, up to the first that ends early. -/
def Stmt.execAll (budget : Nat) : List Stmt → Action Unit
  | [] => pure ()
  | s :: others => do
    Stmt.exec budget s
    Stmt.execAll budget others

end

def Program.exec (budget : Nat) (p : Program) : Action Unit :=
  Stmt.execAll budget p.statements

end BisayaPlus
