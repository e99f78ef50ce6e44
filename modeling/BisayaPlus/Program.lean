import BisayaPlus.Span
import BisayaPlus.Value

/-!
Programs of the language: expressions, and statements in blocks. Each part is marked with its
place in the source.
-/

namespace BisayaPlus

/-- The types that a declaration names: whole numbers, letters, truth values and decimals. -/
inductive DataType where
  | numero
  | letra
  | tinuod
  | tipik
  deriving DecidableEq

def DataType.spelling : DataType → String
  | .numero => "NUMERO"
  | .letra => "LETRA"
  | .tinuod => "TINUOD"
  | .tipik => "TIPIK"

def DataType.zeroValue : DataType → Value
  | .numero | .tipik => .number (.zero false)
  | .letra => .text ""
  | .tinuod => .boolean false

inductive UnaryOp where
  | plus
  | negate
  | not
  deriving DecidableEq

def UnaryOp.spelling : UnaryOp → String
  | .plus => "+"
  | .negate => "-"
  | .not => "DILI"

inductive BinaryOp where
  | add
  | subtract
  | multiply
  | divide
  | modulo
  | equal
  | notEqual
  | less
  | lessEqual
  | greater
  | greaterEqual
  | and
  | or
  deriving DecidableEq

def BinaryOp.spelling : BinaryOp → String
  | .add => "+"
  | .subtract => "-"
  | .multiply => "*"
  | .divide => "/"
  | .modulo => "%"
  | .equal => "=="
  | .notEqual => "<>"
  | .less => "<"
  | .lessEqual => "<="
  | .greater => ">"
  | .greaterEqual => ">="
  | .and => "UG"
  | .or => "O"

/-- The binary operators by strength, the weakest first. -/
def BinaryOp.levels : List (List BinaryOp) :=
  [[.or], [.and], [.equal, .notEqual], [.greater, .greaterEqual, .less, .lessEqual],
   [.subtract, .add], [.divide, .multiply, .modulo]]

inductive Expr where
  | literal (value : Value) (mark : Mark)
  | name (name : String) (mark : Mark)
  | unary (operator : UnaryOp) (operand : Expr) (mark : Mark)
  | binary (operator : BinaryOp) (left right : Expr) (mark : Mark)
  deriving DecidableEq

def Expr.mark : Expr → Mark
  | .literal _ m | .name _ m | .unary _ _ m | .binary _ _ _ m => m

/-- A name with the value that it starts with, if one is given. -/
structure Declarator where
  name : String
  initializer : Option Value
  mark : Mark
  deriving DecidableEq

/-- All targets take the one value. -/
structure Assignment where
  targets : List String
  value : Expr
  mark : Mark
  deriving DecidableEq

mutual

inductive Stmt where
  | declaration (type : DataType) (declarators : List Declarator) (span : Span)
  | assignment (assignment : Assignment)
  | output (values : List Expr) (span : Span)
  | input (targets : List String) (mark : Mark)
  | conditional (first : Branch) (others : List Branch) (otherwise : Option Block) (span : Span)
  | loop (initializer : Stmt) (condition : Expr) (increment : Assignment) (body : Block)
      (span : Span)

inductive Branch where
  | mk (condition : Expr) (body : Block)

inductive Block where
  | mk (statements : List Stmt) (span : Span)

end

def Branch.condition : Branch → Expr
  | .mk condition _ => condition

def Branch.body : Branch → Block
  | .mk _ body => body

def Block.statements : Block → List Stmt
  | .mk statements _ => statements

def Block.span : Block → Span
  | .mk _ span => span

structure Program where
  statements : List Stmt

end BisayaPlus
