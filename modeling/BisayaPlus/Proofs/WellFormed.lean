import BisayaPlus.Proofs.Grammar

/-!
Trees that a source can spell. No list in them is empty that the grammar wants filled, the first
clause of a loop is an assignment or a single declarator, and all numbers in them are finite.
-/

namespace BisayaPlus

/-- The value of a digit is finite. -/
theorem Number.isFinite_ofNat {n : Nat} (h : n < 10) : (ofNat n).isFinite = true := by
  have hall : ∀ m < 10, (ofNat m).isFinite = true := by decide +kernel
  exact hall n h

def Value.Finite : Value → Prop
  | .number n => n.isFinite = true
  | _ => True

def Expr.Finite : Expr → Prop
  | .literal v _ => v.Finite
  | .name _ _ => True
  | .unary _ e _ => e.Finite
  | .binary _ l r _ => l.Finite ∧ r.Finite

def Declarator.WellFormed (d : Declarator) : Prop :=
  ∀ v ∈ d.initializer, v.Finite

def Assignment.WellFormed (a : Assignment) : Prop :=
  a.targets ≠ [] ∧ a.value.Finite

inductive Stmt.IsInitializer : Stmt → Prop
  | declaration (type : DataType) (d : Declarator) (span : Span) :
      IsInitializer (.declaration type [d] span)
  | assignment (a : Assignment) : IsInitializer (.assignment a)

mutual

def Stmt.WellFormed : Stmt → Prop
  | .declaration _ ds _ => ds ≠ [] ∧ ∀ d ∈ ds, d.WellFormed
  | .assignment a => a.WellFormed
  | .output es _ => es ≠ [] ∧ ∀ e ∈ es, e.Finite
  | .input names _ => names ≠ []
  | .conditional first others otherwise _ =>
    first.WellFormed ∧ Branch.AllWellFormed others ∧ Block.OptionalWellFormed otherwise
  | .loop initializer condition increment body _ =>
    initializer.IsInitializer ∧ initializer.WellFormed ∧ condition.Finite ∧
      increment.WellFormed ∧ body.WellFormed

def Branch.WellFormed : Branch → Prop
  | .mk condition body => condition.Finite ∧ body.WellFormed

def Branch.AllWellFormed : List Branch → Prop
  | [] => True
  | b :: bs => b.WellFormed ∧ Branch.AllWellFormed bs

def Block.WellFormed : Block → Prop
  | .mk statements _ => Stmt.AllWellFormed statements

def Block.OptionalWellFormed : Option Block → Prop
  | none => True
  | some b => b.WellFormed

def Stmt.AllWellFormed : List Stmt → Prop
  | [] => True
  | s :: ss => s.WellFormed ∧ Stmt.AllWellFormed ss

end

def Program.WellFormed (p : Program) : Prop :=
  Stmt.AllWellFormed p.statements

def Expr.parts : Expr → List Expr
  | .literal v m => [.literal v m]
  | .name x m => [.name x m]
  | .unary op e m => .unary op e m :: e.parts
  | .binary op l r m => .binary op l r m :: (l.parts ++ r.parts)

theorem Expr.Finite.of_mem_parts {e : Expr} (h : e.Finite) : ∀ part ∈ e.parts, part.Finite := by
  induction e with
  | literal v m => exact List.forall_mem_singleton.2 h
  | name x m => exact List.forall_mem_singleton.2 h
  | unary op e m ih => exact List.forall_mem_cons.2 ⟨h, ih h⟩
  | binary op l r m ihl ihr =>
    exact List.forall_mem_cons.2 ⟨h, List.forall_mem_append.2 ⟨ihl h.1, ihr h.2⟩⟩

mutual

/-- All expressions in a statement, which are those that its run evaluates. -/
def Stmt.exprs : Stmt → List Expr
  | .declaration .. => []
  | .assignment a => a.value.parts
  | .output es _ => es.flatMap Expr.parts
  | .input .. => []
  | .conditional first others otherwise _ =>
    first.exprs ++ (Branch.exprsAll others ++ Block.exprsOptional otherwise)
  | .loop initializer condition increment body _ =>
    initializer.exprs ++ (condition.parts ++ (increment.value.parts ++ body.exprs))

def Branch.exprs : Branch → List Expr
  | .mk condition body => condition.parts ++ body.exprs

def Branch.exprsAll : List Branch → List Expr
  | [] => []
  | b :: bs => b.exprs ++ Branch.exprsAll bs

def Block.exprs : Block → List Expr
  | .mk statements _ => Stmt.exprsAll statements

def Block.exprsOptional : Option Block → List Expr
  | none => []
  | some b => b.exprs

def Stmt.exprsAll : List Stmt → List Expr
  | [] => []
  | s :: ss => s.exprs ++ Stmt.exprsAll ss

end

def Program.exprs (p : Program) : List Expr :=
  Stmt.exprsAll p.statements

mutual

/-- All expressions of a well-formed statement are finite. -/
theorem Stmt.finite_of_mem_exprs {s : Stmt} (h : s.WellFormed) : ∀ e ∈ s.exprs, e.Finite := by
  cases s with
  | declaration | input =>
    exact List.forall_mem_nil _
  | assignment a =>
    exact h.2.of_mem_parts
  | output es span =>
    intro e he
    obtain ⟨whole, hwhole, hpart⟩ := List.mem_flatMap.1 he
    exact (h.2 whole hwhole).of_mem_parts e hpart
  | conditional first others otherwise span =>
    rw [Stmt.exprs, List.forall_mem_append, List.forall_mem_append]
    exact ⟨Branch.finite_of_mem_exprs h.1, Branch.finite_of_mem_exprsAll h.2.1,
      Block.finite_of_mem_exprsOptional h.2.2⟩
  | loop initializer condition increment body span =>
    rw [Stmt.exprs, List.forall_mem_append, List.forall_mem_append, List.forall_mem_append]
    obtain ⟨-, hi, hc, ha, hb⟩ := h
    exact ⟨Stmt.finite_of_mem_exprs hi, hc.of_mem_parts, ha.2.of_mem_parts,
      Block.finite_of_mem_exprs hb⟩

theorem Branch.finite_of_mem_exprs {b : Branch} (h : b.WellFormed) : ∀ e ∈ b.exprs, e.Finite := by
  cases b with
  | mk condition body =>
    rw [Branch.exprs, List.forall_mem_append]
    exact ⟨h.1.of_mem_parts, Block.finite_of_mem_exprs h.2⟩

theorem Branch.finite_of_mem_exprsAll {bs : List Branch} (h : Branch.AllWellFormed bs) :
    ∀ e ∈ Branch.exprsAll bs, e.Finite := by
  cases bs with
  | nil =>
    exact List.forall_mem_nil _
  | cons b bs =>
    rw [Branch.exprsAll, List.forall_mem_append]
    exact ⟨Branch.finite_of_mem_exprs h.1, Branch.finite_of_mem_exprsAll h.2⟩

theorem Block.finite_of_mem_exprs {b : Block} (h : b.WellFormed) : ∀ e ∈ b.exprs, e.Finite := by
  cases b with
  | mk statements span =>
    exact Stmt.finite_of_mem_exprsAll h

theorem Block.finite_of_mem_exprsOptional {b : Option Block} (h : Block.OptionalWellFormed b) :
    ∀ e ∈ Block.exprsOptional b, e.Finite := by
  cases b with
  | none =>
    exact List.forall_mem_nil _
  | some b =>
    exact Block.finite_of_mem_exprs h

theorem Stmt.finite_of_mem_exprsAll {ss : List Stmt} (h : Stmt.AllWellFormed ss) :
    ∀ e ∈ Stmt.exprsAll ss, e.Finite := by
  cases ss with
  | nil =>
    exact List.forall_mem_nil _
  | cons s ss =>
    rw [Stmt.exprsAll, List.forall_mem_append]
    exact ⟨Stmt.finite_of_mem_exprs h.1, Stmt.finite_of_mem_exprsAll h.2⟩

end

namespace Grammar

theorem Literal.finite {t : Token} {v : Value} (h : Literal t v) : v.Finite := by
  cases h with
  | number hk hn hf => exact hf
  | text | character | boolean => trivial

/-- A derived expression has only finite numbers. -/
theorem ExprAt.finite {k : Nat} {ts rest : List Token} {e : Expr} (h : ExprAt k ts e rest) :
    e.Finite := by
  induction h with
  | tighter hk he ih => exact ih
  | binary hop ht hl hr ihl ihr => exact ⟨ihl, ihr⟩
  | unary ho he ih => exact ih
  | literal hv hb => exact hv.finite
  | symbolText ht hs => trivial
  | name ht => trivial
  | parens ho he hc ih => exact ih

theorem Separated.ne_nil {α : Type} {item : List Token → α → List Token → Prop}
    {separator : Token.Kind} {ts rest : List Token} {as : List α}
    (h : Separated item separator ts as rest) : as ≠ [] := by
  cases h <;> simp

/-- What holds of all items that can be derived holds of a list of them. -/
theorem Separated.forall_mem {α : Type} {item : List Token → α → List Token → Prop}
    {separator : Token.Kind} {ts rest : List Token} {as : List α} {p : α → Prop}
    (h : Separated item separator ts as rest)
    (hp : ∀ {ts a rest}, item ts a rest → p a) : ∀ a ∈ as, p a := by
  induction h with
  | one ha => simpa using hp ha
  | more ha ht has ih => simpa using ⟨hp ha, ih⟩

theorem InitialAt.finite {ts rest : List Token} {v : Value} (h : InitialAt ts v rest) :
    v.Finite := by
  cases h with
  | literal hv => exact hv.finite
  | positive hs hv => exact hv.finite
  | negative hs hv =>
    exact (Number.isFinite_neg _).trans hv.finite

theorem DeclaratorAt.wellFormed {ts rest : List Token} {d : Declarator}
    (h : DeclaratorAt ts d rest) : d.WellFormed := by
  cases h with
  | bare ht => simp [Declarator.WellFormed]
  | initialized ht he hv => simpa [Declarator.WellFormed] using hv.finite

theorem AssignmentAt.wellFormed {ts rest : List Token} {a : Assignment}
    (h : AssignmentAt ts a rest) : a.WellFormed := by
  cases h with
  | mk hn he => exact ⟨List.cons_ne_nil _ _, he.finite⟩

theorem LoopInitializerAt.wellFormed {ts rest : List Token} {s : Stmt}
    (h : LoopInitializerAt ts s rest) : s.IsInitializer ∧ s.WellFormed := by
  cases h with
  | declaration ht hw hd =>
    refine ⟨.declaration _ _ _, ?_⟩
    simpa [Stmt.WellFormed] using hd.wellFormed
  | assignment ha => exact ⟨.assignment _, by simpa [Stmt.WellFormed] using ha.wellFormed⟩

theorem LoopIncrementAt.wellFormed {ts rest : List Token} {a : Assignment}
    (h : LoopIncrementAt ts a rest) : a.WellFormed := by
  cases h with
  | increment ht ho => exact ⟨List.cons_ne_nil _ _, trivial, Number.isFinite_ofNat (by decide)⟩
  | assignment ha => exact ha.wellFormed

mutual

/-- A derived statement is well formed. -/
theorem StatementAt.wellFormed {ts rest : List Token} {s : Stmt} (h : StatementAt ts s rest) :
    s.WellFormed :=
  match h with
  | .declaration ht hw hd => by
    exact ⟨hd.ne_nil, hd.forall_mem DeclaratorAt.wellFormed⟩
  | .assignment ha => by
    exact ha.wellFormed
  | .output ht hc he => by
    exact ⟨he.ne_nil, he.forall_mem ExprAt.finite⟩
  | .input ht hc hn => by
    exact hn.ne_nil
  | .conditional ht hf hb ho => by
    exact ⟨hf.wellFormed, hb.wellFormed, ho.wellFormed⟩
  | .loop ht hw hh hb => by
    cases hh with
    | mk ho hi hm he hm' ha hc =>
      exact ⟨hi.wellFormed.1, hi.wellFormed.2, he.finite, ha.wellFormed, hb.wellFormed⟩

theorem BranchAt.wellFormed {ts rest : List Token} {b : Branch} (h : BranchAt ts b rest) :
    b.WellFormed :=
  match h with
  | .mk hf he hb => by
    exact ⟨he.finite, hb.wellFormed⟩

theorem BranchesAt.wellFormed {ts rest : List Token} {bs : List Branch}
    (h : BranchesAt ts bs rest) : Branch.AllWellFormed bs :=
  match h with
  | .nil => trivial
  | .cons ht hb hbs => ⟨hb.wellFormed, hbs.wellFormed⟩

theorem OtherwiseAt.wellFormed {ts rest : List Token} {b : Option Block}
    (h : OtherwiseAt ts b rest) : Block.OptionalWellFormed b :=
  match h with
  | .none => trivial
  | .some hw hb => hb.wellFormed

theorem BlockAt.wellFormed {ts rest : List Token} {b : Block} (h : BlockAt ts b rest) :
    b.WellFormed :=
  match h with
  | .mk hw ho hs hc => by
    exact hs.wellFormed

theorem StatementsAt.wellFormed {ts rest : List Token} {ss : List Stmt}
    (h : StatementsAt ts ss rest) : Stmt.AllWellFormed ss :=
  match h with
  | .nil => trivial
  | .cons hs hss => ⟨hs.wellFormed, hss.wellFormed⟩

end

end Grammar

end BisayaPlus
