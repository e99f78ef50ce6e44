import BisayaPlus.Diagnostic
import BisayaPlus.Number.Arithmetic

/-!
The operators on values and the value of an expression. An expression changes nothing, and both
operands of an operator are always evaluated, the left one first.
-/

namespace BisayaPlus

def UnaryOp.apply (op : UnaryOp) (v : Value) : Except TypeFault Value := do
  match op with
  | .plus => return .number (← number)
  | .negate => return .number (← number).neg
  | .not => return .boolean !(← boolean)
where
  number : Except TypeFault Number := v.toNumber.mapError (.unaryOperand op)
  boolean : Except TypeFault Bool := v.toBoolean.mapError (.unaryOperand op)

namespace BinaryOp

def number (op : BinaryOp) (v : Value) : Except Fault Number :=
  v.toNumber.mapError fun m => .typing (.binaryOperand op m)

def boolean (op : BinaryOp) (v : Value) : Except Fault Bool :=
  v.toBoolean.mapError fun m => .typing (.binaryOperand op m)

/-- A result of arithmetic has to be finite. -/
def checked (op : BinaryOp) (n : Number) : Except Fault Value :=
  if n.isFinite then .ok (.number n) else .error (.runtime (.overflow op))

def arithmetic (op : BinaryOp) (f : Number → Number → Number) (v w : Value) :
    Except Fault Value := do
  let x ← op.number v
  let y ← op.number w
  op.checked (f x y)

def division (op : BinaryOp) (f : Number → Number → Number) (v w : Value) :
    Except Fault Value := do
  let x ← op.number v
  let y ← op.number w
  if y.isZero then .error (.runtime (.divisionByZero op)) else op.checked (f x y)

/-- A comparison holds only between values that stand in some order. -/
def comparison (op : BinaryOp) (holds : Ordering → Bool) (v w : Value) : Except Fault Value := do
  let order? ← (v.order? w).mapError fun m => Fault.typing (.binaryOperand op m)
  return .boolean (order?.any holds)

def connective (op : BinaryOp) (f : Bool → Bool → Bool) (v w : Value) : Except Fault Value := do
  let a ← op.boolean v
  let b ← op.boolean w
  return .boolean (f a b)

def apply (op : BinaryOp) (v w : Value) : Except Fault Value :=
  match op with
  | .add => op.arithmetic .add v w
  | .subtract => op.arithmetic .sub v w
  | .multiply => op.arithmetic .mul v w
  | .divide => op.division .div v w
  | .modulo => op.division .rem v w
  | .equal => .ok (.boolean (v.looselyEquals w))
  | .notEqual => .ok (.boolean !(v.looselyEquals w))
  | .less => op.comparison (· == .lt) v w
  | .lessEqual => op.comparison (· != .gt) v w
  | .greater => op.comparison (· == .gt) v w
  | .greaterEqual => op.comparison (· != .lt) v w
  | .and => op.connective (· && ·) v w
  | .or => op.connective (· || ·) v w

end BinaryOp

namespace Expr

def eval (s : Store) : Expr → Except Diagnostic Value
  | .literal v _ => .ok v
  | .name x mark => (s.get x).mapError fun f => ⟨.naming f, mark⟩
  | .unary op e mark => do
    let v ← e.eval s
    (op.apply v).mapError fun f => ⟨.typing f, mark⟩
  | .binary op e₁ e₂ mark => do
    let v ← e₁.eval s
    let w ← e₂.eval s
    (op.apply v w).mapError fun f => ⟨f, mark⟩

def test (s : Store) (e : Expr) : Except Diagnostic Bool := do
  let v ← e.eval s
  v.toBoolean.mapError fun m => ⟨.typing (.condition m), e.mark⟩

end Expr

/-- The value that a variable of this type gets from an initial value. A number for NUMERO has to
be whole, and a truth value may be given by its word. -/
def DataType.initial (type : DataType) (name : String) (v : Value) : Except TypeFault Value :=
  let unfit := .error (.initializer type name v)
  match type, v with
  | .numero, .number n => if n.isWhole then .ok v else unfit
  | .tipik, .number _ => .ok v
  | .letra, .text _ | .letra, .character _ => .ok v
  | .tinuod, _ =>
    match v.toBoolean with
    | .ok b => .ok (.boolean b)
    | .error _ => unfit
  | _, _ => unfit

end BisayaPlus
