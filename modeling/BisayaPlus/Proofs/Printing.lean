import BisayaPlus.Proofs.GrammarCompleteness
import BisayaPlus.Proofs.WellFormed
import Mathlib.Data.List.Forall2

/-!
Writing a program as tokens. What is written is a list of terminals, each of which several tokens
may fit, since the places of tokens are free and a number may be spelled in many ways. An
expression is put in parentheses only where a tighter level is wanted. A condition always is, and
so is the word for false within an expression, which would negate what follows it.
-/

namespace BisayaPlus

/-- What is wanted of a token: its kind, a name, or the value of a literal. -/
inductive Terminal where
  | kind (kind : Token.Kind)
  | name (name : String)
  | literal (value : Value)

namespace Terminal

def Fits : Terminal → Token → Prop
  | .kind k, t => t.kind = k
  | .name x, t => t.kind = .identifier ∧ t.lexeme = x
  | .literal (.number n), t => t.kind = .number ∧ Number.ofText? t.lexeme.toList = some n
  | .literal (.text s), t => t.kind = .text ∧ t.lexeme = s
  | .literal (.character c), t => t.kind = .character ∧ t.lexeme = c.toString
  | .literal (.boolean true), t => t.kind = .boolean ∧ t.lexeme = Value.trueWord
  | .literal (.boolean false), t => t.kind = .boolean ∧ t.lexeme = Value.falseWord

def word (k : Keyword) : Terminal :=
  .kind (.keyword k)

def symbol (s : Symbol) : Terminal :=
  .kind (.symbol s)

def parenthesised (xs : List Terminal) : List Terminal :=
  symbol .leftParen :: (xs ++ [symbol .rightParen])

def separated (separator : Symbol) (items : List (List Terminal)) : List Terminal :=
  [symbol separator].intercalate items

end Terminal

open Terminal

def Value.terminals : Value → List Terminal
  | .boolean false => parenthesised [.literal (.boolean false)]
  | v => [.literal v]

def UnaryOp.terminal : UnaryOp → Terminal
  | .negate => symbol .minus
  | .plus => symbol .plus
  | .not => .literal (.boolean false)

/-- An expression where one of the given level is wanted. -/
def Expr.terminals : Nat → Expr → List Terminal
  | _, .literal v _ => v.terminals
  | _, .name x _ => [.name x]
  | _, .unary op e _ => op.terminal :: e.terminals 6
  | k, .binary op l r _ =>
    let all := l.terminals op.strength ++ .kind op.kind :: r.terminals (op.strength + 1)
    if op.strength < k then parenthesised all else all

def Declarator.terminals (d : Declarator) : List Terminal :=
  match d.initializer with
  | none => [.name d.name]
  | some v => [.name d.name, symbol .equal, .literal v]

def Assignment.terminals (a : Assignment) : List Terminal :=
  a.targets.flatMap (fun x => [.name x, symbol .equal]) ++ a.value.terminals 0

mutual

def Stmt.terminals : Stmt → List Terminal
  | .declaration type ds _ =>
    word .mugna :: word type.keyword :: separated .comma (ds.map Declarator.terminals)
  | .assignment a => a.terminals
  | .output es _ =>
    word .ipakita :: symbol .colon :: separated .ampersand (es.map (Expr.terminals 0))
  | .input names _ =>
    word .dawat :: symbol .colon :: separated .comma (names.map fun x => [.name x])
  | .conditional first others otherwise _ =>
    word .kung :: (first.terminals ++ (Branch.terminalsAll others ++
      Block.terminalsOptional otherwise))
  | .loop initializer condition increment body _ =>
    word .alang :: word .sa :: symbol .leftParen :: (initializer.terminals ++
      symbol .comma :: (condition.terminals 0 ++ symbol .comma :: (increment.terminals ++
        symbol .rightParen :: body.terminals)))

def Branch.terminals : Branch → List Terminal
  | .mk condition body => parenthesised (condition.terminals 0) ++ body.terminals

def Branch.terminalsAll : List Branch → List Terminal
  | [] => []
  | b :: bs => word .kungDili :: (b.terminals ++ Branch.terminalsAll bs)

def Block.terminals : Block → List Terminal
  | .mk statements _ =>
    word .pundok :: symbol .leftBrace :: (Stmt.terminalsAll statements ++ [symbol .rightBrace])

def Block.terminalsOptional : Option Block → List Terminal
  | none => []
  | some b => word .kungWala :: b.terminals

def Stmt.terminalsAll : List Stmt → List Terminal
  | [] => []
  | s :: ss => s.terminals ++ Stmt.terminalsAll ss

end

def Program.terminals (p : Program) : List Terminal :=
  word .sugod :: (Stmt.terminalsAll p.statements ++ [word .katapusan, .kind .sourceEnd])

namespace Terminal

def Writes : List Terminal → List Token → List Token → Prop
  | [], ts, rest => ts = rest
  | x :: xs, ts, rest => ∃ t us, ts = t :: us ∧ x.Fits t ∧ Writes xs us rest

/-- What writes terminals in two parts is split where the second part begins. -/
theorem writes_append {xs ys : List Terminal} {ts rest : List Token} :
    Writes (xs ++ ys) ts rest ↔ ∃ us, Writes xs ts us ∧ Writes ys us rest := by
  induction xs generalizing ts with
  | nil => simp [Writes]
  | cons x xs ih =>
    constructor
    · rintro ⟨t, us, rfl, ht, h⟩
      obtain ⟨vs, hxs, hys⟩ := ih.1 h
      exact ⟨vs, ⟨t, us, rfl, ht, hxs⟩, hys⟩
    · rintro ⟨vs, ⟨t, us, rfl, ht, hxs⟩, hys⟩
      exact ⟨t, us, rfl, ht, ih.2 ⟨vs, hxs, hys⟩⟩

theorem writes_iff {xs : List Terminal} {ts rest : List Token} :
    Writes xs ts rest ↔ ∃ body, ts = body ++ rest ∧ List.Forall₂ Fits xs body := by
  induction xs generalizing ts with
  | nil => simp [Writes]
  | cons x xs ih =>
    constructor
    · rintro ⟨t, us, rfl, ht, h⟩
      obtain ⟨body, rfl, hbody⟩ := ih.1 h
      exact ⟨t :: body, rfl, .cons ht hbody⟩
    · rintro ⟨_, rfl, _ | ⟨ht, hbody⟩⟩
      exact ⟨_, _, rfl, ht, ih.2 ⟨_, rfl, hbody⟩⟩

end Terminal

namespace Grammar

open Token

theorem literal_of_fits {t : Token} {v : Value} (h : Fits (.literal v) t) (hv : v.Finite) :
    Literal t v := by
  cases v with
  | number n => exact .number h.1 h.2 hv
  | text s =>
    obtain ⟨hk, rfl⟩ := h
    exact .text hk
  | character c =>
    have hc : t.lexeme.toList = [c] := by simp [h.2]
    exact .character h.1 hc
  | boolean b =>
    cases b with
    | true =>
      have hb := Literal.boolean h.1
      rw [h.2] at hb
      exact hb
    | false =>
      have hb := Literal.boolean h.1
      rw [h.2] at hb
      exact hb

theorem not_beginsOperand_rightParen {t : Token} {rest : List Token}
    (ht : t.kind = .symbol .rightParen) : ¬BeginsOperand (t :: rest) := by
  intro h
  obtain ⟨_, _, heq, hne⟩ := h.eq_cons
  cases heq
  exact hne ht

theorem eq_false_of_fits {t : Token} {v : Value} (h : Fits (.literal v) t) (hf : IsFalse t) :
    v = .boolean false := by
  obtain ⟨hk, hl⟩ := hf
  rcases v with n | s | b | c
  · simp [Fits, hk] at h
  · simp [Fits, hk] at h
  · cases b
    · rfl
    · exact absurd (hl.symm.trans h.2) (by decide)
  · simp [Fits, hk] at h

theorem exprAt_of_value {ts rest : List Token} {v : Value} {m : Mark}
    (h : Writes v.terminals ts rest) (hv : v.Finite) : ExprAt 6 ts (.literal v m) rest := by
  by_cases hfalse : v = .boolean false
  · subst hfalse
    obtain ⟨opening, _, rfl, ho, t, _, rfl, ht, closing, us, rfl, hc, rfl⟩ := h
    have hlit : ExprAt 6 (t :: closing :: us) (.literal (.boolean false) m) (closing :: us) :=
      .literal (literal_of_fits ht trivial) fun _ => not_beginsOperand_rightParen hc
    exact .parens ho (hlit.loosen (Nat.le_refl 6) (Nat.zero_le 6)) hc
  · have hterminals : v.terminals = [.literal v] := by
      unfold Value.terminals
      split
      · contradiction
      · rfl
    rw [hterminals] at h
    obtain ⟨t, us, rfl, ht, rfl⟩ := h
    exact .literal (literal_of_fits ht hv) fun hf => absurd (eq_false_of_fits ht hf) hfalse

theorem unaryOpAt_of_fits {t : Token} {us : List Token} {op : UnaryOp} (h : op.terminal.Fits t)
    (hb : BeginsOperand us) : UnaryOpAt (t :: us) op us := by
  cases op with
  | plus => exact .plus h
  | negate => exact .negate h
  | not => exact .not h hb

/-- An expression printed in parentheses can stand where any is wanted. -/
theorem exprAt_of_writes_parenthesised {xs : List Terminal} {ts rest : List Token} {e : Expr}
    (h : Writes (Terminal.parenthesised xs) ts rest)
    (he : ∀ {us rest}, Writes xs us rest → front? rest ≠ some (.symbol .equal) →
      ExprAt 0 us e rest) : ExprAt 6 ts e rest := by
  obtain ⟨opening, us, rfl, ho, h⟩ := h
  obtain ⟨vs, hxs, closing, ws, rfl, hc, rfl⟩ := writes_append.1 h
  have hfront : front? (closing :: ws) ≠ some (.symbol .equal) := by
    have hk : closing.kind = .symbol .rightParen := hc
    simp [hk]
  exact .parens ho (he hxs hfront) hc

/-- An expression that is written where one of a level is wanted is one of that level. -/
theorem exprAt_of_writes {k : Nat} {e : Expr} {ts rest : List Token} (hk : k ≤ 6)
    (he : e.Finite) (h : Writes (e.terminals k) ts rest)
    (hr : front? rest ≠ some (.symbol .equal)) : ExprAt k ts e rest := by
  induction e generalizing k ts rest with
  | literal v m => exact (exprAt_of_value h he).loosen (Nat.le_refl 6) hk
  | name x m =>
    obtain ⟨t, us, rfl, ⟨ht, rfl⟩, rfl⟩ := h
    exact (ExprAt.name ht).loosen (Nat.le_refl 6) hk
  | unary op e m ih =>
    obtain ⟨t, us, rfl, ht, h⟩ := h
    have hoperand := ih (Nat.le_refl 6) he h hr
    have hop := unaryOpAt_of_fits ht (hoperand.beginsOperand hr)
    exact (ExprAt.unary hop hoperand).loosen (Nat.le_refl 6) hk
  | binary op l r m ihl ihr =>
    have hs : op.strength < 6 := BinaryOp.strength_lt op
    have hall : ∀ {ts rest}, Writes (l.terminals op.strength ++ .kind op.kind ::
        r.terminals (op.strength + 1)) ts rest → front? rest ≠ some (.symbol .equal) →
        ExprAt op.strength ts (.binary op l r m) rest := by
      intro ts rest h hr
      obtain ⟨us, hl, t, vs, rfl, ht, hright⟩ := writes_append.1 h
      have hfront : front? (t :: vs) ≠ some (.symbol .equal) := by
        have hk : t.kind = op.kind := ht
        simpa [hk] using BinaryOp.kind_ne_equal op
      exact .binary rfl ht (ihl (Nat.le_of_lt hs) he.1 hl hfront) (ihr hs he.2 hright hr)
    rw [Expr.terminals] at h
    split at h
    · have hparens : ExprAt 6 ts (.binary op l r m) rest :=
        exprAt_of_writes_parenthesised h fun h hr =>
          (hall h hr).loosen (Nat.le_of_lt hs) (Nat.zero_le _)
      exact hparens.loosen (Nat.le_refl 6) hk
    · exact (hall h hr).loosen (Nat.le_of_lt hs) (Nat.le_of_not_lt ‹_›)

/-- Items that are written with separators between them are items of a list. -/
theorem separated_of_writes {α : Type} {item : List Token → α → List Token → Prop}
    {separator : Symbol} {terminals : α → List Terminal} {p : α → Prop}
    (hne : separator ≠ .equal) {as : List α} {ts rest : List Token} (has : as ≠ [])
    (hp : ∀ a ∈ as, p a) (h : Writes (Terminal.separated separator (as.map terminals)) ts rest)
    (hr : front? rest ≠ some (.symbol .equal))
    (hitem : ∀ {a ts rest}, p a → Writes (terminals a) ts rest →
      front? rest ≠ some (.symbol .equal) → item ts a rest) :
    Separated item (.symbol separator) ts as rest := by
  induction as generalizing ts with
  | nil => contradiction
  | cons a as ih =>
    have ha := hp a List.mem_cons_self
    cases as with
    | nil =>
      rw [List.map_singleton, Terminal.separated, List.intercalate_singleton] at h
      exact .one (hitem ha h hr)
    | cons b bs =>
      rw [List.map_cons, List.map_cons, Terminal.separated, List.intercalate_cons_cons,
        List.append_assoc] at h
      obtain ⟨us, hwritten, t, vs, rfl, ht, h⟩ := writes_append.1 h
      have hk : t.kind = .symbol separator := ht
      have hfront : front? (t :: vs) ≠ some (.symbol .equal) := by simpa [hk] using hne
      have htail := ih (List.cons_ne_nil b bs) (fun c hc => hp c (List.mem_cons_of_mem a hc)) h
      exact .more (hitem ha hwritten hfront) hk htail

theorem declaratorAt_of_writes {d : Declarator} {ts rest : List Token} (hd : d.WellFormed)
    (h : Writes d.terminals ts rest) : DeclaratorAt ts d rest := by
  obtain ⟨x, initial, m⟩ := d
  cases initial with
  | none =>
    obtain ⟨t, us, rfl, ⟨ht, rfl⟩, rfl⟩ := h
    exact .bare ht
  | some v =>
    obtain ⟨t, _, rfl, ⟨ht, rfl⟩, equal, _, rfl, he, u, us, rfl, hu, rfl⟩ := h
    exact .initialized ht he (.literal (literal_of_fits hu (hd v rfl)))

theorem nameAt_of_writes {x : String} {ts rest : List Token} (h : Writes [.name x] ts rest) :
    NameAt ts x rest := by
  obtain ⟨t, us, rfl, ⟨ht, rfl⟩, rfl⟩ := h
  exact .mk ht

theorem targetsAt_of_writes {names : List String} {ts rest : List Token}
    (h : Writes (names.flatMap fun x => [.name x, symbol .equal]) ts rest) :
    TargetsAt ts names rest := by
  induction names generalizing ts with
  | nil =>
    cases h
    exact .nil
  | cons x xs ih =>
    obtain ⟨t, _, rfl, ⟨ht, rfl⟩, equal, us, rfl, he, h⟩ := h
    exact .cons ht he (ih h)

/-- A printed assignment is derived with all its targets. -/
theorem assignmentAt_of_writes {a : Assignment} {ts rest : List Token} (ha : a.WellFormed)
    (h : Writes a.terminals ts rest) (hr : front? rest ≠ some (.symbol .equal)) :
    AssignmentAt ts a rest := by
  obtain ⟨names, e, m⟩ := a
  obtain ⟨us, hnames, he⟩ := writes_append.1 h
  cases names with
  | nil => exact absurd rfl ha.1
  | cons x xs =>
    exact .mk (targetsAt_of_writes hnames) (exprAt_of_writes (Nat.zero_le 6) ha.2 he hr)

theorem front?_ne_of_fits {t : Token} {rest : List Token} {k : Token.Kind}
    (h : Fits (.kind k) t) (hk : k ≠ .symbol .equal) :
    front? (t :: rest) ≠ some (.symbol .equal) := by
  have ht : t.kind = k := h
  simpa [ht] using hk

theorem loopInitializerAt_of_writes {s : Stmt} {ts rest : List Token} (hs : s.IsInitializer)
    (hw : s.WellFormed) (h : Writes s.terminals ts rest)
    (hr : front? rest ≠ some (.symbol .equal)) : LoopInitializerAt ts s rest := by
  cases hs with
  | declaration type d span =>
    rw [Stmt.terminals, List.map_singleton, Terminal.separated, List.intercalate_singleton] at h
    obtain ⟨t, _, rfl, ht, u, us, rfl, hu, h⟩ := h
    exact .declaration ht hu (declaratorAt_of_writes (hw.2 d List.mem_cons_self) h)
  | assignment a =>
    exact .assignment (assignmentAt_of_writes hw h hr)

mutual

/-- A printed statement is derived. -/
theorem statementAt_of_writes {s : Stmt} {ts rest : List Token} (hs : s.WellFormed)
    (h : Writes s.terminals ts rest) (hr : front? rest ≠ some (.symbol .equal)) :
    StatementAt ts s rest := by
  cases s with
  | declaration type ds span =>
    obtain ⟨t, _, rfl, ht, u, us, rfl, hu, h⟩ := h
    have hdeclarators : Separated DeclaratorAt (.symbol .comma) us ds rest :=
      separated_of_writes (by decide) hs.1 hs.2 h hr fun hd hw _ => declaratorAt_of_writes hd hw
    exact .declaration ht hu hdeclarators
  | assignment a =>
    exact .assignment (assignmentAt_of_writes hs h hr)
  | output es span =>
    obtain ⟨t, _, rfl, ht, u, us, rfl, hu, h⟩ := h
    have hvalues : Separated (ExprAt 0) (.symbol .ampersand) us es rest :=
      separated_of_writes (by decide) hs.1 hs.2 h hr (exprAt_of_writes (Nat.zero_le 6))
    exact .output ht hu hvalues
  | input names m =>
    obtain ⟨t, _, rfl, ht, u, us, rfl, hu, h⟩ := h
    have hnames : Separated NameAt (.symbol .comma) us names rest :=
      separated_of_writes (by decide) hs (fun _ _ => trivial) h hr fun _ hw _ =>
        nameAt_of_writes hw
    exact .input ht hu hnames
  | conditional first others otherwise span =>
    obtain ⟨t, us, rfl, ht, h⟩ := h
    obtain ⟨vs, hfirst, h⟩ := writes_append.1 h
    obtain ⟨ws, hothers, hotherwise⟩ := writes_append.1 h
    exact .conditional ht (branchAt_of_writes hs.1 hfirst) (branchesAt_of_writes hs.2.1 hothers)
      (otherwiseAt_of_writes hs.2.2 hotherwise)
  | loop init condition increment body span =>
    obtain ⟨hinit, hinitial, hcondition, hincrement, hbody⟩ := hs
    obtain ⟨t, _, rfl, ht, u, _, rfl, hu, opening, us, rfl, ho, h⟩ := h
    obtain ⟨_, hi, comma, vs, rfl, hm, h⟩ := writes_append.1 h
    obtain ⟨_, he, comma', ws, rfl, hm', h⟩ := writes_append.1 h
    obtain ⟨_, ha, closing, xs, rfl, hc, h⟩ := writes_append.1 h
    have hheader : LoopHeaderAt (opening :: us) ⟨init, condition, increment⟩ xs :=
      .mk ho (loopInitializerAt_of_writes hinit hinitial hi (front?_ne_of_fits hm (by decide))) hm
        (exprAt_of_writes (Nat.zero_le 6) hcondition he (front?_ne_of_fits hm' (by decide))) hm'
        (.assignment (assignmentAt_of_writes hincrement ha (front?_ne_of_fits hc (by decide)))) hc
    exact .loop ht hu hheader (blockAt_of_writes hbody h)

theorem branchAt_of_writes {b : Branch} {ts rest : List Token} (hb : b.WellFormed)
    (h : Writes b.terminals ts rest) : BranchAt ts b rest := by
  cases b with
  | mk condition body =>
    obtain ⟨us, hcondition, hbody⟩ := writes_append.1 h
    have he : ExprAt 6 ts condition us :=
      exprAt_of_writes_parenthesised hcondition (exprAt_of_writes (Nat.zero_le 6) hb.1)
    obtain ⟨t, vs, rfl, ht, -⟩ := hcondition
    have hfront : front? (t :: vs) = some (.symbol .leftParen) := congrArg some ht
    exact .mk hfront (he.loosen (Nat.le_refl 6) (Nat.zero_le 6)) (blockAt_of_writes hb.2 hbody)

theorem branchesAt_of_writes {bs : List Branch} {ts rest : List Token}
    (hbs : Branch.AllWellFormed bs) (h : Writes (Branch.terminalsAll bs) ts rest) :
    BranchesAt ts bs rest := by
  cases bs with
  | nil =>
    cases h
    exact .nil
  | cons b bs =>
    obtain ⟨t, us, rfl, ht, h⟩ := h
    obtain ⟨vs, hb, h⟩ := writes_append.1 h
    exact .cons ht (branchAt_of_writes hbs.1 hb) (branchesAt_of_writes hbs.2 h)

theorem otherwiseAt_of_writes {b : Option Block} {ts rest : List Token}
    (hb : Block.OptionalWellFormed b) (h : Writes (Block.terminalsOptional b) ts rest) :
    OtherwiseAt ts b rest := by
  cases b with
  | none =>
    cases h
    exact .none
  | some b =>
    obtain ⟨t, us, rfl, ht, h⟩ := h
    exact .some ht (blockAt_of_writes hb h)

theorem blockAt_of_writes {b : Block} {ts rest : List Token} (hb : b.WellFormed)
    (h : Writes b.terminals ts rest) : BlockAt ts b rest := by
  cases b with
  | mk statements span =>
    obtain ⟨t, _, rfl, ht, opening, us, rfl, ho, h⟩ := h
    obtain ⟨_, hs, closing, vs, rfl, hc, rfl⟩ := writes_append.1 h
    exact .mk ht ho (statementsAt_of_writes hb hs (front?_ne_of_fits hc (by decide))) hc

/-- Printed statements are derived in their order. -/
theorem statementsAt_of_writes {ss : List Stmt} {ts rest : List Token}
    (hss : Stmt.AllWellFormed ss) (h : Writes (Stmt.terminalsAll ss) ts rest)
    (hr : front? rest ≠ some (.symbol .equal)) : StatementsAt ts ss rest := by
  cases ss with
  | nil =>
    cases h
    exact .nil
  | cons s ss =>
    obtain ⟨us, hs, h⟩ := writes_append.1 h
    have htail := statementsAt_of_writes hss.2 h hr
    -- No statement begins with an equal sign, so a name at the end of one is not a target.
    have hfront : front? us ≠ some (.symbol .equal) := by
      cases htail with
      | nil => exact hr
      | cons hs' hss' =>
        obtain ⟨t, vs, rfl, ht⟩ := hs'.exists_cons
        rintro hk
        rw [Option.some.inj hk] at ht
        simp at ht
    exact .cons (statementAt_of_writes hss.1 hs hfront) htail

end

end Grammar

namespace Terminal

def endsBody : Terminal → Bool
  | .kind k => k == .keyword .katapusan || k == .sourceEnd
  | _ => false

theorem endsBody_eq_of_fits {x : Terminal} {t : Token} (h : x.Fits t) :
    Program.endsBody t = x.endsBody := by
  rcases x with k | x | v
  · have hk : t.kind = k := h
    simp [Program.endsBody, endsBody, hk]
  · simp [Program.endsBody, endsBody, h.1]
  · rcases v with n | s | b | c
    · simp [Program.endsBody, endsBody, h.1]
    · simp [Program.endsBody, endsBody, h.1]
    · cases b <;> simp [Program.endsBody, endsBody, h.1]
    · simp [Program.endsBody, endsBody, h.1]

def Inner (xs : List Terminal) : Prop :=
  ∀ x ∈ xs, x.endsBody = false

@[simp] theorem inner_nil : Inner [] := by
  simp [Inner]

@[simp] theorem inner_cons (x : Terminal) (xs : List Terminal) :
    Inner (x :: xs) ↔ x.endsBody = false ∧ Inner xs := by
  simp [Inner]

@[simp] theorem inner_append (xs ys : List Terminal) :
    Inner (xs ++ ys) ↔ Inner xs ∧ Inner ys := by
  simp [Inner, or_imp, forall_and]

@[simp] theorem endsBody_symbol (s : Symbol) : (symbol s).endsBody = false := rfl

@[simp] theorem endsBody_name (x : String) : (name x).endsBody = false := rfl

@[simp] theorem endsBody_literal (v : Value) : (literal v).endsBody = false := rfl

theorem endsBody_word {k : Keyword} (h : k ≠ .katapusan) : (word k).endsBody = false := by
  cases k <;> first | rfl | contradiction

@[simp] theorem inner_parenthesised (xs : List Terminal) :
    Inner (parenthesised xs) ↔ Inner xs := by
  simp [parenthesised]

theorem inner_separated {separator : Symbol} {items : List (List Terminal)}
    (h : ∀ xs ∈ items, Inner xs) : Inner (separated separator items) := by
  induction items with
  | nil => exact inner_nil
  | cons xs rest ih =>
    have hxs := h xs List.mem_cons_self
    have hrest := ih fun ys hys => h ys (List.mem_cons_of_mem xs hys)
    cases rest with
    | nil => simpa [separated, List.intercalate_singleton] using hxs
    | cons ys zs =>
      rw [separated, List.intercalate_cons_cons, inner_append, inner_append]
      exact ⟨⟨hxs, by simp⟩, hrest⟩

end Terminal

theorem Expr.inner_terminals (k : Nat) (e : Expr) : Inner (e.terminals k) := by
  induction e generalizing k with
  | literal v m =>
    rw [Expr.terminals]
    unfold Value.terminals
    split <;> simp
  | name x m => simp [Expr.terminals]
  | unary op e m ih => cases op <;> simp [Expr.terminals, UnaryOp.terminal, ih]
  | binary op l r m ihl ihr =>
    have hop : (Terminal.kind op.kind).endsBody = false := by cases op <;> rfl
    rw [Expr.terminals]
    split <;> simp [ihl, ihr, hop]

theorem Declarator.inner_terminals (d : Declarator) : Inner d.terminals := by
  unfold Declarator.terminals
  split <;> simp

theorem Assignment.inner_terminals (a : Assignment) : Inner a.terminals := by
  have htargets : Inner (a.targets.flatMap fun x => [.name x, symbol .equal]) := by
    induction a.targets with
    | nil => simp
    | cons x xs ih => simpa using ih
  simp [Assignment.terminals, htargets, Expr.inner_terminals]

mutual

/-- No printed statement has a token that ends a program. -/
theorem Stmt.inner_terminals (s : Stmt) : Inner s.terminals := by
  cases s with
  | declaration type ds span =>
    have hds : Inner (separated .comma (ds.map Declarator.terminals)) :=
      inner_separated (List.forall_mem_map.2 fun d _ => d.inner_terminals)
    cases type <;> simp [Stmt.terminals, endsBody_word, DataType.keyword, hds]
  | assignment a =>
    exact a.inner_terminals
  | output es span =>
    have hes : Inner (separated .ampersand (es.map (Expr.terminals 0))) :=
      inner_separated (List.forall_mem_map.2 fun e _ => e.inner_terminals 0)
    simp [Stmt.terminals, endsBody_word, hes]
  | input names m =>
    have hnames : Inner (separated .comma (names.map fun x => [.name x])) :=
      inner_separated (List.forall_mem_map.2 fun x _ => by simp)
    simp [Stmt.terminals, endsBody_word, hnames]
  | conditional first others otherwise span =>
    simp [Stmt.terminals, endsBody_word, Branch.inner_terminals first,
      Branch.inner_terminalsAll others, Block.inner_terminalsOptional otherwise]
  | loop init condition increment body span =>
    simp [Stmt.terminals, endsBody_word, Stmt.inner_terminals init,
      condition.inner_terminals, increment.inner_terminals, Block.inner_terminals body]

theorem Branch.inner_terminals (b : Branch) : Inner b.terminals := by
  cases b with
  | mk condition body =>
    simp [Branch.terminals, condition.inner_terminals, Block.inner_terminals body]

theorem Branch.inner_terminalsAll (bs : List Branch) : Inner (Branch.terminalsAll bs) := by
  cases bs with
  | nil => simp [Branch.terminalsAll]
  | cons b bs =>
    simp [Branch.terminalsAll, endsBody_word, Branch.inner_terminals b,
      Branch.inner_terminalsAll bs]

theorem Block.inner_terminals (b : Block) : Inner b.terminals := by
  cases b with
  | mk statements span =>
    simp [Block.terminals, endsBody_word, Stmt.inner_terminalsAll statements]

theorem Block.inner_terminalsOptional (b : Option Block) :
    Inner (Block.terminalsOptional b) := by
  cases b with
  | none => simp [Block.terminalsOptional]
  | some b => simp [Block.terminalsOptional, endsBody_word, Block.inner_terminals b]

theorem Stmt.inner_terminalsAll (ss : List Stmt) : Inner (Stmt.terminalsAll ss) := by
  cases ss with
  | nil => simp [Stmt.terminalsAll]
  | cons s ss =>
    simp [Stmt.terminalsAll, Stmt.inner_terminals s, Stmt.inner_terminalsAll ss]

end

theorem Terminal.endsBody_eq_false_of_mem {xs : List Terminal} {ts : List Token}
    (h : List.Forall₂ Fits xs ts) (hxs : Inner xs) : ∀ t ∈ ts, Program.endsBody t = false := by
  induction h with
  | nil => simp
  | cons ht h ih =>
    rw [inner_cons] at hxs
    exact List.forall_mem_cons.2 ⟨(endsBody_eq_of_fits ht).trans hxs.1, ih hxs.2⟩

/-- A program that is written as tokens is read back, apart from the places of its parts. -/
theorem Program.exists_ofTokens_eq_ok_of_fits {p : Program} {ts : List Token}
    (hp : p.WellFormed) (h : List.Forall₂ Fits p.terminals ts) :
    ∃ q, ofTokens ts = .ok q ∧ q.unmarked = p.unmarked := by
  have hall : Writes p.terminals ts [] := writes_iff.2 ⟨ts, (List.append_nil ts).symm, h⟩
  obtain ⟨start, us, rfl, hs, hall⟩ := hall
  obtain ⟨vs, hbody, close, rest, rfl, hc, -⟩ := writes_append.1 hall
  obtain ⟨body, rfl, hfits⟩ := writes_iff.1 hbody
  have hwrites : Writes (Stmt.terminalsAll p.statements) body [] :=
    writes_iff.2 ⟨body, (List.append_nil body).symm, hfits⟩
  have hderives := Grammar.statementsAt_of_writes hp hwrites (by simp)
  have hends := endsBody_eq_false_of_mem hfits (Stmt.inner_terminalsAll p.statements)
  exact exists_ofTokens_eq_ok hs hc hends hderives

/-- The difference on the right is in parentheses, since differences group to the left. -/
theorem Program.exists_ofTokens_eq_ok_nested_difference :
    ∃ q, ofTokens
        [⟨.keyword .sugod, "SUGOD", ⟨0, 5⟩, 1⟩, ⟨.identifier, "x", ⟨6, 7⟩, 1⟩,
          ⟨.symbol .equal, "=", ⟨7, 8⟩, 1⟩, ⟨.identifier, "x", ⟨8, 9⟩, 1⟩,
          ⟨.symbol .minus, "-", ⟨9, 10⟩, 1⟩, ⟨.symbol .leftParen, "(", ⟨10, 11⟩, 1⟩,
          ⟨.identifier, "y", ⟨11, 12⟩, 1⟩, ⟨.symbol .minus, "-", ⟨12, 13⟩, 1⟩,
          ⟨.number, "1", ⟨13, 14⟩, 1⟩, ⟨.symbol .rightParen, ")", ⟨14, 15⟩, 1⟩,
          ⟨.keyword .katapusan, "KATAPUSAN", ⟨16, 25⟩, 1⟩, ⟨.sourceEnd, "", ⟨25, 25⟩, 1⟩] =
        .ok q ∧
      q.unmarked = Program.unmarked
        ⟨[.assignment ⟨["x"], .binary .subtract (.name "x" .blank) (.binary .subtract
          (.name "y" .blank) (.literal (.number (.ofNat 1)) .blank) .blank) .blank, .blank⟩]⟩ := by
  apply exists_ofTokens_eq_ok_of_fits
  · exact ⟨⟨by simp, trivial, trivial, Number.isFinite_ofNat (by decide)⟩, trivial⟩
  · refine .cons rfl (.cons ⟨rfl, rfl⟩ (.cons rfl (.cons ⟨rfl, rfl⟩ (.cons rfl (.cons rfl
      (.cons ⟨rfl, rfl⟩ (.cons rfl (.cons ⟨rfl, ?_⟩ (.cons rfl (.cons rfl (.cons rfl .nil)))))))))))
    decide +kernel

end BisayaPlus
