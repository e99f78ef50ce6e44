import BisayaPlus.Program.SimpleStatement

/-!
Programs without their marks. Two programs are the same apart from the places of their parts if
they are equal without marks.
-/

namespace BisayaPlus

def Mark.blank : Mark :=
  ⟨⟨0, 0⟩, 0⟩

def Expr.unmarked : Expr → Expr
  | .literal v _ => .literal v .blank
  | .name x _ => .name x .blank
  | .unary op e _ => .unary op e.unmarked .blank
  | .binary op l r _ => .binary op l.unmarked r.unmarked .blank

def Declarator.unmarked (d : Declarator) : Declarator :=
  ⟨d.name, d.initializer, .blank⟩

def Assignment.unmarked (a : Assignment) : Assignment :=
  ⟨a.targets, a.value.unmarked, .blank⟩

mutual

def Stmt.unmarked : Stmt → Stmt
  | .declaration type ds _ => .declaration type (ds.map Declarator.unmarked) Mark.blank.span
  | .assignment a => .assignment a.unmarked
  | .output es _ => .output (es.map Expr.unmarked) Mark.blank.span
  | .input names _ => .input names .blank
  | .conditional first others otherwise _ =>
    .conditional first.unmarked (Branch.unmarkedAll others) (Block.unmarkedOptional otherwise)
      Mark.blank.span
  | .loop initializer condition increment body _ =>
    .loop initializer.unmarked condition.unmarked increment.unmarked body.unmarked Mark.blank.span

def Branch.unmarked : Branch → Branch
  | .mk condition body => .mk condition.unmarked body.unmarked

def Branch.unmarkedAll : List Branch → List Branch
  | [] => []
  | b :: bs => b.unmarked :: Branch.unmarkedAll bs

def Block.unmarked : Block → Block
  | .mk statements _ => .mk (Stmt.unmarkedAll statements) Mark.blank.span

def Block.unmarkedOptional : Option Block → Option Block
  | none => none
  | some b => some b.unmarked

def Stmt.unmarkedAll : List Stmt → List Stmt
  | [] => []
  | s :: ss => s.unmarked :: Stmt.unmarkedAll ss

end

def LoopHeader.unmarked (h : LoopHeader) : LoopHeader :=
  ⟨h.initializer.unmarked, h.condition.unmarked, h.increment.unmarked⟩

def Program.unmarked (p : Program) : Program :=
  ⟨Stmt.unmarkedAll p.statements⟩

end BisayaPlus
