import BisayaPlus.Proofs.Outcome.Statement
import BisayaPlus.Proofs.Rounding
import BisayaPlus.Proofs.WellFormed
import Mathlib.Tactic.IntervalCases

/-!
What is read is grammatical: a reader that succeeds took exactly the tokens that spell its tree.
-/

namespace BisayaPlus

namespace BinaryOp

theorem ofKind?_eq_some_iff {k : Token.Kind} {op : BinaryOp} :
    ofKind? k = some op ↔ k = op.kind := by
  constructor
  · intro h
    unfold ofKind? at h
    split at h <;> cases h <;> rfl
  · rintro rfl
    cases op <;> rfl

def operators (k : Nat) : List BinaryOp :=
  levels.getD k []

theorem mem_operators {k : Nat} {op : BinaryOp} : op ∈ operators k ↔ op.strength = k := by
  rcases Nat.lt_or_ge k 6 with hk | hk
  · interval_cases k <;> cases op <;> decide
  · have hs : op.strength ≠ k := by cases op <;> simp only [strength] <;> omega
    have hnil : operators k = [] := by
      rw [operators, List.getD_eq_getElem?_getD, List.getElem?_eq_none hk]
      rfl
    simp [hnil, hs]

theorem drop_levels {k : Nat} (hk : k < 6) :
    levels.drop k = operators k :: levels.drop (k + 1) := by
  interval_cases k <;> rfl

end BinaryOp

namespace Grammar

open Token Parse

/-- The operators of a level are read from their own tokens. -/
theorem binaryOp?_operators_eq_some_iff {k : Nat} {t : Token} {op : BinaryOp} :
    binaryOp? (BinaryOp.operators k) t = some op ↔ t.kind = op.kind ∧ op.strength = k := by
  simp only [binaryOp?, Option.filter_eq_some_iff, BinaryOp.ofKind?_eq_some_iff,
    List.contains_iff_mem, BinaryOp.mem_operators]

theorem symbolText?_eq_some_iff {s : Symbol} {text : String} :
    symbolText? s = some text ↔ SymbolText s text := by
  constructor
  · intro h
    cases s <;> cases h <;> constructor
  · rintro (_ | _ | _ | _) <;> rfl

theorem number_eq_ok_iff {t : Token} {n : Number} :
    Parse.number t = .ok n ↔ Number.ofText? t.lexeme.toList = some n ∧ n.isFinite = true := by
  unfold Parse.number
  split
  · rename_i m hm
    by_cases hf : m.isFinite = true
    · simp only [hf, if_true, hm, Except.ok.injEq, Option.some.injEq]
      exact ⟨fun h => ⟨h, h ▸ hf⟩, fun h => h.1⟩
    · simp only [hf, hm, Option.some.injEq]
      exact ⟨fun h => (by cases h), fun h => absurd (h.1 ▸ h.2) hf⟩
  · rename_i hm
    simp [hm]

/-- The literals that are read are those of the grammar. -/
theorem literal?_eq_some_ok_iff {t : Token} {v : Value} :
    literal? t = some (.ok v) ↔ Literal t v := by
  constructor
  · intro h
    unfold literal? at h
    split at h
    · rename_i hk
      cases hn : Parse.number t with
      | error d =>
        rw [hn] at h
        cases h
      | ok n =>
        rw [hn] at h
        cases h
        exact .number hk (number_eq_ok_iff.1 hn).1 (number_eq_ok_iff.1 hn).2
    · cases h
      exact .text ‹_›
    · rename_i hk
      unfold Parse.character at h
      split at h
      · cases h
        exact .character hk ‹_›
      · cases h
    · cases h
      exact .boolean ‹_›
    · cases h
  · rintro (⟨hk, hn, hf⟩ | hk | ⟨hk, hc⟩ | hk)
    · simp only [literal?, hk, number_eq_ok_iff.2 ⟨hn, hf⟩]
      rfl
    · simp [literal?, hk]
    · simp only [literal?, hk, Parse.character, hc]
      rfl
    · simp [literal?, hk]

/-- Whether an operand begins is decided as the grammar has it. -/
theorem startsOperand_iff {ts : List Token} : startsOperand ts = true ↔ BeginsOperand ts := by
  constructor
  · intro h
    cases ts with
    | nil => cases h
    | cons t rest =>
      simp only [startsOperand] at h
      split at h
      · exact .literal (by simp [*])
      · exact .literal (by simp [*])
      · exact .literal (by simp [*])
      · exact .literal (by simp [*])
      · rename_i hk
        refine .name hk fun he => ?_
        rw [(atSymbol_eq_true_iff .equal rest).2 he] at h
        cases h
      · rename_i s hk
        simp only [Bool.or_eq_true, beq_iff_eq] at h
        rcases h with ((rfl | rfl) | rfl) | h
        · exact .symbol (by simp [hk])
        · exact .symbol (by simp [hk])
        · exact .symbol (by simp [hk])
        · obtain ⟨text, ht⟩ := Option.isSome_iff_exists.1 h
          exact .symbolText hk (symbolText?_eq_some_iff.1 ht)
      · cases h
  · rintro (hk | ⟨hk, hr⟩ | hk | ⟨hk, hs⟩)
    · simp only [List.mem_cons, List.not_mem_nil, or_false] at hk
      rcases hk with hk | hk | hk | hk <;> simp [startsOperand, hk]
    · rename_i t rest
      have hat : atSymbol .equal rest = false :=
        Bool.eq_false_iff.2 fun h => hr ((atSymbol_eq_true_iff .equal rest).1 h)
      simp [startsOperand, hk, hat]
    · simp only [List.mem_cons, List.not_mem_nil, or_false] at hk
      rcases hk with hk | hk | hk <;> simp [startsOperand, hk]
    · simp [startsOperand, hk, symbolText?_eq_some_iff.2 hs]

/-- The unary operators that are read are those of the grammar. -/
theorem unaryOp?_eq_some_iff {t : Token} {rest : List Token} {op : UnaryOp} :
    unaryOp? t rest = some op ↔ UnaryOpAt (t :: rest) op rest := by
  unfold unaryOp?
  constructor
  · intro h
    split at h
    · cases h
      exact .negate ‹_›
    split at h
    · cases h
      exact .plus ‹_›
    split at h
    · rename_i hf
      cases h
      exact .not ⟨hf.1, hf.2.1⟩ (startsOperand_iff.1 hf.2.2)
    · cases h
  · rintro (ht | ht | ⟨⟨hk, hl⟩, hb⟩)
    · simp [ht]
    · simp [ht]
    · simp [hk, hl, startsOperand_iff.2 hb]

theorem requireOperand_eq_ok_iff {stop operator : Token} {ts : List Token} :
    requireOperand stop operator ts = .ok () ↔ BeginsOperand ts := by
  rw [← startsOperand_iff, requireOperand]
  split <;> simp [*]

theorem exprAt_of_parenthesised {stop t : Token} {rest : List Token} {q : Reading Expr}
    (ht : t.kind = .symbol .leftParen) (h : parenthesised stop t rest = .ok q)
    (hin : ∀ q, outcome (level stop BinaryOp.levels rest) = .ok q → ExprAt 0 rest q.value q.rest) :
    ExprAt 6 (t :: rest) q.value q.rest := by
  unfold parenthesised at h
  split at h
  · cases h
  split at h
  · cases h
  obtain ⟨inner, hinner, h⟩ := Except.bind_eq_ok_iff.1 h
  obtain ⟨close, hclose, h⟩ := Except.bind_eq_ok_iff.1 h
  obtain ⟨c, others, hrest, hc, rfl⟩ := outcome_expect_eq_ok_iff.1 hclose
  cases h
  have he := hin inner hinner
  rw [hrest] at he
  exact .parens ht he hc

mutual

/-- What is read on a level is derived on this level. -/
theorem exprAt_of_level {stop : Token} {k : Nat} {ts : List Token} {q : Reading Expr} (hk : k ≤ 6)
    (h : outcome (level stop (BinaryOp.levels.drop k) ts) = .ok q) :
    ExprAt k ts q.value q.rest := by
  rcases Nat.lt_or_ge k 6 with hlt | hge
  · rw [BinaryOp.drop_levels hlt, outcome_level_cons, Except.bind_eq_ok_iff] at h
    obtain ⟨first, hfirst, h⟩ := h
    have hleft := exprAt_of_level (Nat.succ_le_of_lt hlt) hfirst
    exact exprAt_of_levelTail hlt (.tighter hlt hleft) h
  · obtain rfl : k = 6 := Nat.le_antisymm hk hge
    exact exprAt_of_unary ((outcome_level_nil stop ts).symm.trans h)
termination_by 10 * ts.length + (6 - k) + 2
decreasing_by
  · omega
  · have := rest_length_lt hfirst
    omega
  · omega

/-- What is read behind an operand is derived with this operand on the left. -/
theorem exprAt_of_levelTail {stop last : Token} {k : Nat} {us ts : List Token} {left : Expr}
    {q : Reading Expr} (hk : k < 6) (hl : ExprAt k us left ts)
    (h : outcome (levelTail stop (BinaryOp.operators k) (BinaryOp.levels.drop (k + 1)) left last
      ts) = .ok q) :
    ExprAt k us q.value q.rest := by
  cases ts with
  | nil =>
    rw [outcome_levelTail_nil] at h
    cases h
    exact hl
  | cons t rest =>
    cases hop : binaryOp? (BinaryOp.operators k) t with
    | none =>
      rw [outcome_levelTail_of_none hop] at h
      cases h
      exact hl
    | some op =>
      rw [outcome_levelTail_of_some hop] at h
      obtain ⟨_, -, h⟩ := Except.bind_eq_ok_iff.1 h
      obtain ⟨right, hright, h⟩ := Except.bind_eq_ok_iff.1 h
      obtain ⟨ht, hs⟩ := binaryOp?_operators_eq_some_iff.1 hop
      have hr := exprAt_of_level (Nat.succ_le_of_lt hk) hright
      exact exprAt_of_levelTail hk (.binary hs ht hl hr) h
termination_by 10 * ts.length + (6 - (k + 1))
decreasing_by
  · subst_vars
    simp only [List.length_cons]
    omega
  · have := rest_length_lt hright
    subst_vars
    simp only [List.length_cons]
    omega

theorem exprAt_of_unary {stop : Token} {ts : List Token} {q : Reading Expr}
    (h : outcome (unary stop ts) = .ok q) : ExprAt 6 ts q.value q.rest := by
  cases ts with
  | nil =>
    rw [outcome_unary_nil] at h
    cases h
  | cons t rest =>
    cases hop : unaryOp? t rest with
    | none =>
      rw [outcome_unary_of_none hop] at h
      exact exprAt_of_primary hop h
    | some op =>
      rw [outcome_unary_of_some hop] at h
      obtain ⟨_, -, h⟩ := Except.bind_eq_ok_iff.1 h
      obtain ⟨operand, hoperand, h⟩ := Except.bind_eq_ok_iff.1 h
      cases h
      exact .unary (unaryOp?_eq_some_iff.1 hop) (exprAt_of_unary hoperand)
termination_by 10 * ts.length + 1
decreasing_by
  all_goals
    subst_vars
    simp only [List.length_cons]
    omega

theorem exprAt_of_primary {stop t : Token} {rest : List Token} {q : Reading Expr}
    (hop : unaryOp? t rest = none) (h : outcome (primary stop t rest) = .ok q) :
    ExprAt 6 (t :: rest) q.value q.rest := by
  rw [outcome_primary] at h
  split at h
  · rename_i value hl
    obtain ⟨v, rfl, h⟩ := Except.bind_eq_ok_iff.1 h
    cases h
    -- In front of an operand, the word for false would have been taken as an operator.
    refine .literal (literal?_eq_some_ok_iff.1 hl) fun hf hb => ?_
    rw [unaryOp?_eq_some_iff.2 (.not hf hb)] at hop
    cases hop
  split at h
  · cases h
    exact .name ‹_›
  · exact exprAt_of_parenthesised ‹_› h fun q hq =>
      exprAt_of_level (Nat.zero_le _) hq
  · split at h
    · cases h
      exact .symbolText ‹_› (symbolText?_eq_some_iff.1 ‹_›)
    · cases h
  · cases h
termination_by 10 * rest.length + 10
decreasing_by omega

end

/-- What is read as an expression is derived as one. -/
theorem exprAt_of_expression {stop : Token} {ts : List Token} {q : Reading Expr}
    (h : outcome (expression stop ts) = .ok q) : ExprAt 0 ts q.value q.rest :=
  exprAt_of_level (Nat.zero_le 6) h

/-- A number without a sign is read as it is. -/
theorem signedLiteral?_none (t : Token) : signedLiteral? none t = literal? t := by
  unfold signedLiteral?
  by_cases hk : t.kind = .number
  · rw [if_pos hk, literal?, hk]
    cases hn : Parse.number t with
    | error d => rfl
    | ok n =>
      have hone : n.mul (.ofNat 1) = n := Number.mul_ofNat_one (number_eq_ok_iff.1 hn).2
      simp only [Except.map, Option.getD_none, hone]
  · rw [if_neg hk, if_neg (by simp)]

theorem signedLiteral?_some_eq_some_ok_iff {factor : Number} {t : Token} {v : Value} :
    signedLiteral? (some factor) t = some (.ok v) ↔
      ∃ n, Literal t (.number n) ∧ v = .number (n.mul factor) := by
  unfold signedLiteral?
  constructor
  · intro h
    split at h
    · rename_i hk
      cases hn : Parse.number t with
      | error d =>
        rw [hn] at h
        cases h
      | ok n =>
        rw [hn] at h
        cases h
        have hnumber := number_eq_ok_iff.1 hn
        exact ⟨n, .number hk hnumber.1 hnumber.2, rfl⟩
    · cases h
  · rintro ⟨n, ⟨hk, hn, hf⟩, rfl⟩
    rw [if_pos hk, number_eq_ok_iff.2 ⟨hn, hf⟩]
    rfl

theorem factor?_eq_some_iff {t : Token} {factor : Number} :
    factor? t = some factor ↔
      t.kind = .symbol .minus ∧ (Number.ofNat 1).neg = factor ∨
        t.kind = .symbol .plus ∧ Number.ofNat 1 = factor := by
  unfold factor?
  split
  · simp_all
  · split <;> simp_all

theorem factor?_eq_none_iff {t : Token} :
    factor? t = none ↔ t.kind ≠ .symbol .minus ∧ t.kind ≠ .symbol .plus := by
  unfold factor?
  split
  · simp_all
  · split <;> simp_all

/-- A sign before a number negates it or leaves it as it is. -/
theorem initialAt_of_factor? {sign t : Token} {rest : List Token} {factor n : Number}
    (hs : factor? sign = some factor) (hv : Literal t (.number n)) :
    InitialAt (sign :: t :: rest) (.number (n.mul factor)) rest := by
  rcases factor?_eq_some_iff.1 hs with ⟨hk, rfl⟩ | ⟨hk, rfl⟩
  · rw [Number.mul_neg_ofNat_one hv.finite]
    exact .negative hk hv
  · rw [Number.mul_ofNat_one hv.finite]
    exact .positive hk hv

theorem value_of_signedLiteral {stop last : Token} {factor : Option Number} {ts : List Token}
    {q : Reading Value} (h : outcome (signedLiteral stop last factor ts) = .ok q) :
    ∃ t, ts = t :: q.rest ∧ signedLiteral? factor t = some (.ok q.value) := by
  rw [outcome_signedLiteral] at h
  split at h
  · cases h
  split at h
  · rename_i value hvalue
    obtain ⟨v, rfl, h⟩ := Except.bind_eq_ok_iff.1 h
    cases h
    exact ⟨_, rfl, hvalue⟩
  · cases h

/-- What is read as an initial value is derived as one, with its sign. -/
theorem initialAt_of_initialValue {stop last : Token} {ts : List Token} {q : Reading Value}
    (h : outcome (initialValue stop last ts) = .ok q) : InitialAt ts q.value q.rest := by
  rw [outcome_initialValue] at h
  split at h
  · cases h
  split at h
  · obtain ⟨t, rfl, hv⟩ := value_of_signedLiteral h
    obtain ⟨n, hn, hvalue⟩ := signedLiteral?_some_eq_some_ok_iff.1 hv
    rw [hvalue]
    exact initialAt_of_factor? ‹_› hn
  · obtain ⟨t, ht, hv⟩ := value_of_signedLiteral h
    rw [signedLiteral?_none] at hv
    rw [ht]
    exact .literal (literal?_eq_some_ok_iff.1 hv)

theorem declaratorAt_of_declarator {stop last : Token} {type : DataType} {ts : List Token}
    {q : Reading Declarator} (h : outcome (declarator stop type last ts) = .ok q) :
    DeclaratorAt ts q.value q.rest := by
  rw [outcome_declarator] at h
  obtain ⟨name, hname, h⟩ := Except.bind_eq_ok_iff.1 h
  obtain ⟨t, rest, rfl, ht, rfl⟩ := outcome_expect_eq_ok_iff.1 hname
  dsimp only at h
  split at h
  · cases h
    exact .bare ht
  · rename_i equal hequal
    obtain ⟨e, us, rfl, he, rfl⟩ := accepted_eq_some_iff.1 hequal
    obtain ⟨initial, hinitial, h⟩ := Except.bind_eq_ok_iff.1 h
    cases h
    exact .initialized ht he (initialAt_of_initialValue hinitial)

/-- What is read as a list is derived with separators between its items. -/
theorem separated_of_readsList {α : Type} {separator : Token.Kind}
    {item : Token → List Token → Except Diagnostic (Reading α)}
    {list : Token → List Token → Except Diagnostic (Reading (List α))}
    {itemAt : List Token → α → List Token → Prop} (h : ReadsList separator item list)
    (hlt : ∀ {last ts q}, item last ts = .ok q → q.rest.length < ts.length)
    (hitem : ∀ {last ts q}, item last ts = .ok q → itemAt ts q.value q.rest)
    (last : Token) {ts : List Token} {q : Reading (List α)} (hq : list last ts = .ok q) :
    Separated itemAt separator ts q.value q.rest := by
  rw [h] at hq
  obtain ⟨first, hfirst, hq⟩ := Except.bind_eq_ok_iff.1 hq
  have ha := hitem hfirst
  split at hq
  · cases hq
    exact .one ha
  · rename_i s hs
    obtain ⟨t, us, hrest, ht, rfl⟩ := accepted_eq_some_iff.1 hs
    obtain ⟨others, hothers, hq⟩ := Except.bind_eq_ok_iff.1 hq
    cases hq
    rw [hrest] at ha
    exact .more ha ht (separated_of_readsList h hlt hitem t hothers)
termination_by ts.length
decreasing_by
  have := hlt hfirst
  simp only [hrest, List.length_cons] at this
  omega

theorem separated_of_declarators {stop last : Token} {type : DataType} {ts : List Token}
    {q : Reading (List Declarator)} (h : outcome (declarators stop type last ts) = .ok q) :
    Separated DeclaratorAt (.symbol .comma) ts q.value q.rest :=
  separated_of_readsList (readsList_declarators stop type) rest_length_lt
    declaratorAt_of_declarator last h

theorem ofKind?_eq_some_iff {k : Token.Kind} {type : DataType} :
    DataType.ofKind? k = some type ↔ k = .keyword type.keyword := by
  constructor
  · intro h
    unfold DataType.ofKind? at h
    split at h <;> cases h <;> rfl
  · rintro rfl
    cases type <;> rfl

theorem separated_of_declaration {stop start : Token} {ts : List Token} {q : Reading Stmt}
    (h : outcome (declaration false stop start ts) = .ok q) :
    ∃ word us type ds span, ts = word :: us ∧ word.kind = .keyword type.keyword ∧
      q.value = .declaration type ds span ∧
      Separated DeclaratorAt (.symbol .comma) us ds q.rest := by
  rw [outcome_declaration] at h
  split at h
  · cases h
  split at h
  · cases h
  · rename_i word us _ type hw
    obtain ⟨list, hlist, h⟩ := Except.bind_eq_ok_iff.1 h
    cases h
    exact ⟨word, us, type, list.value, _, rfl, ofKind?_eq_some_iff.1 hw, rfl,
      separated_of_declarators hlist⟩

theorem loopInitializerAt_of_declaration {stop start : Token} {ts : List Token} {q : Reading Stmt}
    (hs : start.kind = .keyword .mugna) (h : outcome (declaration true stop start ts) = .ok q) :
    LoopInitializerAt (start :: ts) q.value q.rest := by
  rw [outcome_declaration] at h
  split at h
  · cases h
  split at h
  · cases h
  · rename_i hw
    obtain ⟨list, hlist, h⟩ := Except.bind_eq_ok_iff.1 h
    obtain ⟨d, hd, hlist⟩ := Except.bind_eq_ok_iff.1 hlist
    cases hlist
    cases h
    exact .declaration hs (ofKind?_eq_some_iff.1 hw) (declaratorAt_of_declarator hd)

theorem targetsAt_furtherTargets (last : Token) (ts : List Token) :
    TargetsAt ts (furtherTargets last ts).value (furtherTargets last ts).rest := by
  fun_induction furtherTargets last ts with
  | case1 => exact .nil
  | case2 => exact .nil
  | case3 last t equal rest h more ih => exact .cons h.1 h.2 ih
  | case4 => exact .nil

/-- What is read as an assignment is derived as one, with all its targets. -/
theorem assignmentAt_of_assignment {stop last : Token} {ts : List Token} {q : Reading Assignment}
    (h : outcome (assignment stop last ts) = .ok q) : AssignmentAt ts q.value q.rest := by
  rw [outcome_assignment] at h
  obtain ⟨first, hfirst, h⟩ := Except.bind_eq_ok_iff.1 h
  obtain ⟨equal, hequal, h⟩ := Except.bind_eq_ok_iff.1 h
  obtain ⟨value, hvalue, h⟩ := Except.bind_eq_ok_iff.1 h
  obtain ⟨t, us, rfl, ht, rfl⟩ := outcome_expect_eq_ok_iff.1 hfirst
  obtain ⟨e, vs, rfl, he, rfl⟩ := outcome_expect_eq_ok_iff.1 hequal
  cases h
  exact .mk (.cons ht he (targetsAt_furtherTargets e vs)) (exprAt_of_expression hvalue)

theorem separated_of_outputValues {stop : Token} {ts : List Token} {q : Reading (List Expr)}
    (h : outcome (outputValues stop ts) = .ok q) :
    Separated (ExprAt 0) (.symbol .ampersand) ts q.value q.rest :=
  separated_of_readsList (readsList_outputValues stop) rest_length_lt exprAt_of_expression stop h

theorem nameAt_of_inputTarget {stop last : Token} {ts : List Token} {q : Reading String}
    (h : inputTarget stop last ts = .ok q) : NameAt ts q.value q.rest := by
  obtain ⟨name, hname, h⟩ := Except.bind_eq_ok_iff.1 h
  cases h
  obtain ⟨t, rest, rfl, ht, rfl⟩ := outcome_expect_eq_ok_iff.1 hname
  exact .mk ht

theorem separated_of_inputTargets {stop last : Token} {ts : List Token} {q : Reading (List String)}
    (h : outcome (inputTargets stop last ts) = .ok q) :
    Separated NameAt (.symbol .comma) ts q.value q.rest :=
  separated_of_readsList (readsList_inputTargets stop) rest_length_lt_of_inputTarget
    nameAt_of_inputTarget last h

theorem loopInitializerAt_of_loopInitializer {stop last : Token} {ts : List Token}
    {q : Reading Stmt} (h : outcome (loopInitializer stop last ts) = .ok q) :
    LoopInitializerAt ts q.value q.rest := by
  rw [outcome_loopInitializer] at h
  split at h
  · rename_i start hstart
    obtain ⟨t, us, rfl, ht, rfl⟩ := accepted_eq_some_iff.1 hstart
    exact loopInitializerAt_of_declaration ht h
  split at h
  · obtain ⟨a, ha, h⟩ := Except.bind_eq_ok_iff.1 h
    cases h
    exact .assignment (assignmentAt_of_assignment ha)
  · cases h

theorem loopIncrementAt_of_loopIncrement {stop last : Token} {ts : List Token}
    {q : Reading Assignment} (h : outcome (loopIncrement stop last ts) = .ok q) :
    LoopIncrementAt ts q.value q.rest := by
  by_cases hi : ∃ t rest, ts = t :: rest ∧ t.kind = .identifier ∧
      front? rest = some (.symbol .increment)
  · obtain ⟨t, us, rfl, ht, hf⟩ := hi
    obtain ⟨operator, rest, rfl, ho⟩ := exists_cons_of_front? hf
    rw [outcome_loopIncrement_of_increment stop last ht ho] at h
    cases h
    exact .increment ht ho
  · rw [outcome_loopIncrement_of_ne fun t rest hts ht hf => hi ⟨t, rest, hts, ht, hf⟩] at h
    exact .assignment (assignmentAt_of_assignment h)

/-- The clauses that are read for a loop are derived. -/
theorem loopHeaderAt_of_loopHeader {stop last : Token} {ts : List Token} {q : Reading LoopHeader}
    (h : outcome (loopHeader stop last ts) = .ok q) : LoopHeaderAt ts q.value q.rest := by
  rw [outcome_loopHeader] at h
  obtain ⟨start, hstart, h⟩ := Except.bind_eq_ok_iff.1 h
  obtain ⟨init, hinit, h⟩ := Except.bind_eq_ok_iff.1 h
  obtain ⟨comma, hcomma, h⟩ := Except.bind_eq_ok_iff.1 h
  obtain ⟨condition, hcondition, h⟩ := Except.bind_eq_ok_iff.1 h
  obtain ⟨comma', hcomma', h⟩ := Except.bind_eq_ok_iff.1 h
  obtain ⟨increment, hincrement, h⟩ := Except.bind_eq_ok_iff.1 h
  obtain ⟨close, hclose, h⟩ := Except.bind_eq_ok_iff.1 h
  cases h
  obtain ⟨s, us, rfl, hs, rfl⟩ := outcome_expect_eq_ok_iff.1 hstart
  obtain ⟨m, vs, hinitrest, hm, rfl⟩ := outcome_expect_eq_ok_iff.1 hcomma
  obtain ⟨m', ws, hconditionrest, hm', rfl⟩ := outcome_expect_eq_ok_iff.1 hcomma'
  obtain ⟨c, xs, hincrementrest, hc, rfl⟩ := outcome_expect_eq_ok_iff.1 hclose
  have hi := loopInitializerAt_of_loopInitializer hinit
  have he := exprAt_of_expression hcondition
  have ha := loopIncrementAt_of_loopIncrement hincrement
  rw [hinitrest] at hi
  rw [hconditionrest] at he
  rw [hincrementrest] at ha
  exact .mk hs hi hm he hm' ha hc

mutual

/-- What is read as a statement is derived as one. -/
theorem statementAt_of_statement {stop last : Token} {ts : List Token} {q : Reading Stmt}
    (h : outcome (statement stop last ts) = .ok q) : StatementAt ts q.value q.rest := by
  cases ts with
  | nil =>
    rw [outcome_statement_nil] at h
    cases h
  | cons t rest =>
    rw [outcome_statement_cons] at h
    unfold statementAt at h
    split at h
    · obtain ⟨word, us, type, ds, span, rfl, hw, hv, hd⟩ := separated_of_declaration h
      rw [hv]
      exact .declaration ‹_› hw hd
    · obtain ⟨a, ha, h⟩ := Except.bind_eq_ok_iff.1 h
      cases h
      exact .assignment (assignmentAt_of_assignment ha)
    · rw [outcome_output] at h
      obtain ⟨colon, hcolon, h⟩ := Except.bind_eq_ok_iff.1 h
      obtain ⟨values, hvalues, h⟩ := Except.bind_eq_ok_iff.1 h
      cases h
      obtain ⟨c, us, rfl, hc, rfl⟩ := outcome_expect_eq_ok_iff.1 hcolon
      exact .output ‹_› hc (separated_of_outputValues hvalues)
    · rw [outcome_input] at h
      obtain ⟨colon, hcolon, h⟩ := Except.bind_eq_ok_iff.1 h
      obtain ⟨names, hnames, h⟩ := Except.bind_eq_ok_iff.1 h
      cases h
      obtain ⟨c, us, rfl, hc, rfl⟩ := outcome_expect_eq_ok_iff.1 hcolon
      exact .input ‹_› hc (separated_of_inputTargets hnames)
    · exact statementAt_of_conditional ‹_› h
    · exact statementAt_of_loop ‹_› h
    · cases h
    · cases h
    · cases h
termination_by 4 * ts.length + 2
decreasing_by
  all_goals
    subst_vars
    simp only [List.length_cons]
    omega

theorem statementAt_of_conditional {stop start : Token} {ts : List Token} {q : Reading Stmt}
    (hs : start.kind = .keyword .kung) (h : outcome (conditional stop start ts) = .ok q) :
    StatementAt (start :: ts) q.value q.rest := by
  rw [outcome_conditional] at h
  obtain ⟨first, hfirst, h⟩ := Except.bind_eq_ok_iff.1 h
  obtain ⟨others, hothers, h⟩ := Except.bind_eq_ok_iff.1 h
  have hf := branchAt_of_branch hfirst
  have hb := branchesAt_of_branches hothers
  split at h
  · cases h
    exact .conditional hs hf hb .none
  · rename_i word hword
    obtain ⟨w, us, hrest, hw, rfl⟩ := accepted_eq_some_iff.1 hword
    obtain ⟨otherwise, hotherwise, h⟩ := Except.bind_eq_ok_iff.1 h
    cases h
    rw [hrest] at hb
    exact .conditional hs hf hb (.some hw (blockAt_of_block hotherwise))
termination_by 4 * ts.length + 2
decreasing_by
  · omega
  · have := rest_length_lt hfirst
    omega
  · have := rest_length_lt hfirst
    have := rest_length_lt hothers
    simp only [hrest, List.length_cons] at this
    omega

theorem branchesAt_of_branches {stop last : Token} {ts : List Token} {q : Reading (List Branch)}
    (h : outcome (branches stop last ts) = .ok q) : BranchesAt ts q.value q.rest := by
  rw [outcome_branches] at h
  split at h
  · cases h
    exact .nil
  · rename_i word hword
    obtain ⟨w, us, rfl, hw, rfl⟩ := accepted_eq_some_iff.1 hword
    obtain ⟨first, hfirst, h⟩ := Except.bind_eq_ok_iff.1 h
    obtain ⟨others, hothers, h⟩ := Except.bind_eq_ok_iff.1 h
    cases h
    exact .cons hw (branchAt_of_branch hfirst) (branchesAt_of_branches hothers)
termination_by 4 * ts.length
decreasing_by
  · subst_vars
    simp only [List.length_cons]
    omega
  · have := rest_length_lt hfirst
    subst_vars
    simp only [List.length_cons] at this ⊢
    omega

theorem branchAt_of_branch {stop : Token} {owner : Owner} {ts : List Token} {q : Reading Branch}
    (h : outcome (branch stop owner ts) = .ok q) : BranchAt ts q.value q.rest := by
  rw [outcome_branch] at h
  split at h
  · obtain ⟨condition, hcondition, h⟩ := Except.bind_eq_ok_iff.1 h
    obtain ⟨body, hbody, h⟩ := Except.bind_eq_ok_iff.1 h
    cases h
    exact .mk ‹_› (exprAt_of_expression hcondition) (blockAt_of_block hbody)
  · cases h
termination_by 4 * ts.length + 1
decreasing_by
  have := rest_length_lt hcondition
  omega

theorem statementAt_of_loop {stop start : Token} {ts : List Token} {q : Reading Stmt}
    (hs : start.kind = .keyword .alang) (h : outcome (loop stop start ts) = .ok q) :
    StatementAt (start :: ts) q.value q.rest := by
  rw [outcome_loop] at h
  obtain ⟨word, hword, h⟩ := Except.bind_eq_ok_iff.1 h
  obtain ⟨header, hheader, h⟩ := Except.bind_eq_ok_iff.1 h
  obtain ⟨body, hbody, h⟩ := Except.bind_eq_ok_iff.1 h
  cases h
  obtain ⟨w, us, rfl, hw, rfl⟩ := outcome_expect_eq_ok_iff.1 hword
  exact .loop hs hw (loopHeaderAt_of_loopHeader hheader) (blockAt_of_block hbody)
termination_by 4 * ts.length + 2
decreasing_by
  have := rest_length_lt hheader
  subst_vars
  simp only [List.length_cons] at this ⊢
  omega

theorem blockAt_of_block {stop last : Token} {owner : Owner} {ts : List Token} {q : Reading Block}
    (h : outcome (block stop owner last ts) = .ok q) : BlockAt ts q.value q.rest := by
  rw [outcome_block] at h
  obtain ⟨word, hword, h⟩ := Except.bind_eq_ok_iff.1 h
  obtain ⟨start, hstart, h⟩ := Except.bind_eq_ok_iff.1 h
  obtain ⟨body, hbody, h⟩ := Except.bind_eq_ok_iff.1 h
  obtain ⟨close, hclose, h⟩ := Except.bind_eq_ok_iff.1 h
  cases h
  obtain ⟨w, us, rfl, hw, rfl⟩ := outcome_expect_eq_ok_iff.1 hword
  obtain ⟨s, vs, rfl, hs, rfl⟩ := outcome_expect_eq_ok_iff.1 hstart
  obtain ⟨c, ws, hrest, hc, rfl⟩ := outcome_expect_eq_ok_iff.1 hclose
  have hss := statementsAt_of_statements hbody
  rw [hrest] at hss
  exact .mk hw hs hss hc
termination_by 4 * ts.length
decreasing_by
  subst_vars
  simp only [List.length_cons]
  omega

/-- The statements that are read are derived in their order. -/
theorem statementsAt_of_statements {stop last : Token} {ts : List Token}
    {q : Reading (List Stmt)} (h : outcome (statements stop last ts) = .ok q) :
    StatementsAt ts q.value q.rest := by
  by_cases hend : AtEnd ts
  · rw [outcome_statements_of_atEnd hend] at h
    cases h
    exact .nil
  · rw [outcome_statements_of_not_atEnd hend] at h
    obtain ⟨first, hfirst, h⟩ := Except.bind_eq_ok_iff.1 h
    obtain ⟨others, hothers, h⟩ := Except.bind_eq_ok_iff.1 h
    cases h
    exact .cons (statementAt_of_statement hfirst) (statementsAt_of_statements hothers)
termination_by 4 * ts.length + 3
decreasing_by
  · omega
  · have := rest_length_lt hfirst
    omega

end

end Grammar

end BisayaPlus
