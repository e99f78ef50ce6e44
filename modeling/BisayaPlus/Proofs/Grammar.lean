import BisayaPlus.Program.SimpleStatement

/-!
The grammar of programs, apart from how they are read. Each relation holds between some tokens, a
tree that the first of them spell, and the tokens after those. The marks in a tree may be any. The
word for false is the one place where the tokens behind a phrase count: it negates if an operand
begins after it, and is a literal if not.
-/

namespace BisayaPlus

/-- The place of a binary operator among the levels, of which the first binds weakest. -/
def BinaryOp.strength : BinaryOp → Nat
  | .or => 0
  | .and => 1
  | .equal | .notEqual => 2
  | .less | .lessEqual | .greater | .greaterEqual => 3
  | .add | .subtract => 4
  | .multiply | .divide | .modulo => 5

def BinaryOp.kind : BinaryOp → Token.Kind
  | .or => .keyword .o
  | .and => .keyword .ug
  | .equal => .symbol .equalEqual
  | .notEqual => .symbol .lessGreater
  | .less => .symbol .less
  | .lessEqual => .symbol .lessEqual
  | .greater => .symbol .greater
  | .greaterEqual => .symbol .greaterEqual
  | .add => .symbol .plus
  | .subtract => .symbol .minus
  | .multiply => .symbol .star
  | .divide => .symbol .slash
  | .modulo => .symbol .percent

def DataType.keyword : DataType → Keyword
  | .numero => .numero
  | .letra => .letra
  | .tinuod => .tinuod
  | .tipik => .tipik

namespace Token

def front? (ts : List Token) : Option Token.Kind :=
  ts.head?.map Token.kind

@[simp] theorem front?_nil : front? [] = none := rfl

@[simp] theorem front?_cons (t : Token) (rest : List Token) :
    front? (t :: rest) = some t.kind := rfl

theorem exists_cons_of_front? {ts : List Token} {kind : Token.Kind} (h : front? ts = some kind) :
    ∃ t rest, ts = t :: rest ∧ t.kind = kind := by
  cases ts with
  | nil => cases h
  | cons t rest => exact ⟨t, rest, rfl, Option.some.inj h⟩

end Token

namespace Grammar

open Token

def IsFalse (t : Token) : Prop :=
  t.kind = .boolean ∧ t.lexeme = Value.falseWord

inductive Literal : Token → Value → Prop
  | number {t : Token} {n : Number} (hk : t.kind = .number)
      (hn : Number.ofText? t.lexeme.toList = some n) (hf : n.isFinite = true) :
      Literal t (.number n)
  | text {t : Token} (hk : t.kind = .text) : Literal t (.text t.lexeme)
  | character {t : Token} {c : Char} {cs : List Char} (hk : t.kind = .character)
      (hc : t.lexeme.toList = c :: cs) : Literal t (.character c)
  | boolean {t : Token} (hk : t.kind = .boolean) :
      Literal t (.boolean (t.lexeme == Value.trueWord))

inductive SymbolText : Symbol → String → Prop
  | dollar : SymbolText .dollar "\n"
  | openBracket : SymbolText .escapeOpenBracket "["
  | closeBracket : SymbolText .escapeCloseBracket "]"
  | hash : SymbolText .escapeHash "#"

/-- The first token can begin an operand. A name with an equal sign after it begins an
assignment. -/
inductive BeginsOperand : List Token → Prop
  | literal {t : Token} {rest : List Token}
      (hk : t.kind ∈ [.number, .text, .character, .boolean]) : BeginsOperand (t :: rest)
  | name {t : Token} {rest : List Token} (hk : t.kind = .identifier)
      (hr : front? rest ≠ some (.symbol .equal)) : BeginsOperand (t :: rest)
  | symbol {t : Token} {rest : List Token}
      (hk : t.kind ∈ [.symbol .leftParen, .symbol .plus, .symbol .minus]) :
      BeginsOperand (t :: rest)
  | symbolText {t : Token} {rest : List Token} {s : Symbol} {text : String}
      (hk : t.kind = .symbol s) (hs : SymbolText s text) : BeginsOperand (t :: rest)

inductive UnaryOpAt : List Token → UnaryOp → List Token → Prop
  | negate {t : Token} {rest : List Token} (ht : t.kind = .symbol .minus) :
      UnaryOpAt (t :: rest) .negate rest
  | plus {t : Token} {rest : List Token} (ht : t.kind = .symbol .plus) :
      UnaryOpAt (t :: rest) .plus rest
  | not {t : Token} {rest : List Token} (ht : IsFalse t) (hb : BeginsOperand rest) :
      UnaryOpAt (t :: rest) .not rest

/-- Expressions of a level. The levels from 0 to 5 are those of the binary operators, which group
to the left, and level 6 has the unary operators and what stands between operators. -/
inductive ExprAt : Nat → List Token → Expr → List Token → Prop
  | tighter {k : Nat} {ts rest : List Token} {e : Expr} (hk : k < 6)
      (he : ExprAt (k + 1) ts e rest) : ExprAt k ts e rest
  | binary {k : Nat} {ts us rest : List Token} {t : Token} {l r : Expr} {op : BinaryOp} {m : Mark}
      (hop : op.strength = k) (ht : t.kind = op.kind) (hl : ExprAt k ts l (t :: us))
      (hr : ExprAt (k + 1) us r rest) : ExprAt k ts (.binary op l r m) rest
  | unary {ts us rest : List Token} {e : Expr} {op : UnaryOp} {m : Mark} (ho : UnaryOpAt ts op us)
      (he : ExprAt 6 us e rest) : ExprAt 6 ts (.unary op e m) rest
  | literal {rest : List Token} {t : Token} {v : Value} {m : Mark} (hv : Literal t v)
      (hb : IsFalse t → ¬BeginsOperand rest) : ExprAt 6 (t :: rest) (.literal v m) rest
  | symbolText {rest : List Token} {t : Token} {s : Symbol} {text : String} {m : Mark}
      (ht : t.kind = .symbol s) (hs : SymbolText s text) :
      ExprAt 6 (t :: rest) (.literal (.text text) m) rest
  | name {rest : List Token} {t : Token} {m : Mark} (ht : t.kind = .identifier) :
      ExprAt 6 (t :: rest) (.name t.lexeme m) rest
  | parens {us rest : List Token} {opening closing : Token} {e : Expr}
      (ho : opening.kind = .symbol .leftParen) (he : ExprAt 0 us e (closing :: rest))
      (hc : closing.kind = .symbol .rightParen) : ExprAt 6 (opening :: us) e rest

/-- Where a loose expression may stand, a tight one may. -/
theorem ExprAt.loosen {j k : Nat} {ts rest : List Token} {e : Expr} (h : ExprAt k ts e rest)
    (hk : k ≤ 6) (hjk : j ≤ k) : ExprAt j ts e rest := by
  induction hjk with
  | refl => exact h
  | step hjm ih => exact ih (.tighter hk h) (Nat.le_of_lt hk)

inductive Separated {α : Type} (item : List Token → α → List Token → Prop)
    (separator : Token.Kind) : List Token → List α → List Token → Prop
  | one {ts rest : List Token} {a : α} (ha : item ts a rest) : Separated item separator ts [a] rest
  | more {ts us rest : List Token} {t : Token} {a : α} {as : List α} (ha : item ts a (t :: us))
      (ht : t.kind = separator) (has : Separated item separator us as rest) :
      Separated item separator ts (a :: as) rest

inductive NameAt : List Token → String → List Token → Prop
  | mk {t : Token} {rest : List Token} (ht : t.kind = .identifier) :
      NameAt (t :: rest) t.lexeme rest

/-- Initial values. A sign may only stand before a number, and applies to its value. -/
inductive InitialAt : List Token → Value → List Token → Prop
  | literal {t : Token} {rest : List Token} {v : Value} (hv : Literal t v) :
      InitialAt (t :: rest) v rest
  | negative {sign t : Token} {rest : List Token} {n : Number} (hs : sign.kind = .symbol .minus)
      (hv : Literal t (.number n)) : InitialAt (sign :: t :: rest) (.number n.neg) rest
  | positive {sign t : Token} {rest : List Token} {n : Number} (hs : sign.kind = .symbol .plus)
      (hv : Literal t (.number n)) : InitialAt (sign :: t :: rest) (.number n) rest

inductive DeclaratorAt : List Token → Declarator → List Token → Prop
  | bare {t : Token} {rest : List Token} {m : Mark} (ht : t.kind = .identifier) :
      DeclaratorAt (t :: rest) ⟨t.lexeme, none, m⟩ rest
  | initialized {t equal : Token} {us rest : List Token} {v : Value} {m : Mark}
      (ht : t.kind = .identifier) (he : equal.kind = .symbol .equal) (hv : InitialAt us v rest) :
      DeclaratorAt (t :: equal :: us) ⟨t.lexeme, some v, m⟩ rest

inductive TargetsAt : List Token → List String → List Token → Prop
  | nil {ts : List Token} : TargetsAt ts [] ts
  | cons {t equal : Token} {us rest : List Token} {names : List String}
      (ht : t.kind = .identifier) (he : equal.kind = .symbol .equal)
      (hn : TargetsAt us names rest) : TargetsAt (t :: equal :: us) (t.lexeme :: names) rest

inductive AssignmentAt : List Token → Assignment → List Token → Prop
  | mk {ts us rest : List Token} {name : String} {names : List String} {e : Expr} {m : Mark}
      (hn : TargetsAt ts (name :: names) us) (he : ExprAt 0 us e rest) :
      AssignmentAt ts ⟨name :: names, e, m⟩ rest

inductive LoopInitializerAt : List Token → Stmt → List Token → Prop
  | declaration {t word : Token} {us rest : List Token} {type : DataType} {d : Declarator}
      {span : Span} (ht : t.kind = .keyword .mugna) (hw : word.kind = .keyword type.keyword)
      (hd : DeclaratorAt us d rest) :
      LoopInitializerAt (t :: word :: us) (.declaration type [d] span) rest
  | assignment {ts rest : List Token} {a : Assignment} (ha : AssignmentAt ts a rest) :
      LoopInitializerAt ts (.assignment a) rest

/-- The last clause of a loop. A name with two plus signs is the assignment of its successor. -/
inductive LoopIncrementAt : List Token → Assignment → List Token → Prop
  | increment {t operator : Token} {rest : List Token} {m m₁ m₂ m₃ : Mark}
      (ht : t.kind = .identifier) (ho : operator.kind = .symbol .increment) :
      LoopIncrementAt (t :: operator :: rest)
        ⟨[t.lexeme], .binary .add (.name t.lexeme m₁) (.literal (.number (.ofNat 1)) m₂) m₃, m⟩
        rest
  | assignment {ts rest : List Token} {a : Assignment} (ha : AssignmentAt ts a rest) :
      LoopIncrementAt ts a rest

inductive LoopHeaderAt : List Token → LoopHeader → List Token → Prop
  | mk {opening comma comma' closing : Token} {us vs ws rest : List Token} {init : Stmt}
      {condition : Expr} {increment : Assignment} (ho : opening.kind = .symbol .leftParen)
      (hi : LoopInitializerAt us init (comma :: vs)) (hm : comma.kind = .symbol .comma)
      (he : ExprAt 0 vs condition (comma' :: ws)) (hm' : comma'.kind = .symbol .comma)
      (ha : LoopIncrementAt ws increment (closing :: rest))
      (hc : closing.kind = .symbol .rightParen) :
      LoopHeaderAt (opening :: us) ⟨init, condition, increment⟩ rest

mutual

inductive StatementAt : List Token → Stmt → List Token → Prop
  | declaration {t word : Token} {us rest : List Token} {type : DataType} {ds : List Declarator}
      {span : Span} (ht : t.kind = .keyword .mugna) (hw : word.kind = .keyword type.keyword)
      (hd : Separated DeclaratorAt (.symbol .comma) us ds rest) :
      StatementAt (t :: word :: us) (.declaration type ds span) rest
  | assignment {ts rest : List Token} {a : Assignment} (ha : AssignmentAt ts a rest) :
      StatementAt ts (.assignment a) rest
  | output {t colon : Token} {us rest : List Token} {es : List Expr} {span : Span}
      (ht : t.kind = .keyword .ipakita) (hc : colon.kind = .symbol .colon)
      (he : Separated (ExprAt 0) (.symbol .ampersand) us es rest) :
      StatementAt (t :: colon :: us) (.output es span) rest
  | input {t colon : Token} {us rest : List Token} {names : List String} {m : Mark}
      (ht : t.kind = .keyword .dawat) (hc : colon.kind = .symbol .colon)
      (hn : Separated NameAt (.symbol .comma) us names rest) :
      StatementAt (t :: colon :: us) (.input names m) rest
  | conditional {t : Token} {us vs ws rest : List Token} {first : Branch} {others : List Branch}
      {otherwise : Option Block} {span : Span} (ht : t.kind = .keyword .kung)
      (hf : BranchAt us first vs) (hb : BranchesAt vs others ws)
      (ho : OtherwiseAt ws otherwise rest) :
      StatementAt (t :: us) (.conditional first others otherwise span) rest
  | loop {t word : Token} {us vs rest : List Token} {header : LoopHeader} {body : Block}
      {span : Span} (ht : t.kind = .keyword .alang) (hw : word.kind = .keyword .sa)
      (hh : LoopHeaderAt us header vs) (hb : BlockAt vs body rest) :
      StatementAt (t :: word :: us)
        (.loop header.initializer header.condition header.increment body span) rest

/-- A condition begins with a parenthesis, but need not end with the closing one. -/
inductive BranchAt : List Token → Branch → List Token → Prop
  | mk {ts us rest : List Token} {condition : Expr} {body : Block}
      (hf : front? ts = some (.symbol .leftParen)) (he : ExprAt 0 ts condition us)
      (hb : BlockAt us body rest) : BranchAt ts (.mk condition body) rest

inductive BranchesAt : List Token → List Branch → List Token → Prop
  | nil {ts : List Token} : BranchesAt ts [] ts
  | cons {t : Token} {us vs rest : List Token} {b : Branch} {bs : List Branch}
      (ht : t.kind = .keyword .kungDili) (hb : BranchAt us b vs) (hbs : BranchesAt vs bs rest) :
      BranchesAt (t :: us) (b :: bs) rest

inductive OtherwiseAt : List Token → Option Block → List Token → Prop
  | none {ts : List Token} : OtherwiseAt ts none ts
  | some {t : Token} {us rest : List Token} {b : Block} (ht : t.kind = .keyword .kungWala)
      (hb : BlockAt us b rest) : OtherwiseAt (t :: us) (some b) rest

inductive BlockAt : List Token → Block → List Token → Prop
  | mk {word opening closing : Token} {us rest : List Token} {statements : List Stmt} {span : Span}
      (hw : word.kind = .keyword .pundok) (ho : opening.kind = .symbol .leftBrace)
      (hs : StatementsAt us statements (closing :: rest))
      (hc : closing.kind = .symbol .rightBrace) :
      BlockAt (word :: opening :: us) (.mk statements span) rest

inductive StatementsAt : List Token → List Stmt → List Token → Prop
  | nil {ts : List Token} : StatementsAt ts [] ts
  | cons {ts us rest : List Token} {s : Stmt} {ss : List Stmt} (hs : StatementAt ts s us)
      (hss : StatementsAt us ss rest) : StatementsAt ts (s :: ss) rest

end

end Grammar

end BisayaPlus
