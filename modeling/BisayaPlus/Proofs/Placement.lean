import BisayaPlus.Proofs.Outcome.Statement
import BisayaPlus.Proofs.Outline

/-!
What is read is well placed: if the tokens stand one after another in the source, the outlines of
what a reader returns are proper and stand behind the token in front of them, one after another,
up to the last token that was read.
-/

namespace BisayaPlus

open Text

structure Token.Stands (source : List Char) (t : Token) : Prop where
  span : t.span.Lies source
  line : t.line = lineAt source t.span.start

structure Token.Row (source : List Char) (ts : List Token) : Prop where
  stands : ∀ t ∈ ts, t.Stands source
  ordered : ts.Pairwise fun t u => t.span.stop ≤ u.span.start

variable {source : List Char}

/-- The mark of a token lies in the source. -/
theorem Token.Stands.mark_lies {t : Token} (h : t.Stands source) : t.mark.Lies source where
  span := h.span
  first := h.line.ge
  last := h.line.trans_le (lineAt_mono source h.span.nonempty.le)

namespace Token.Row

variable {t u : Token} {ts : List Token}

theorem tail (h : Row source (t :: ts)) : Row source ts :=
  ⟨(List.forall_mem_cons.1 h.stands).2, h.ordered.of_cons⟩

theorem head (h : Row source (t :: ts)) : t.Stands source :=
  h.stands t List.mem_cons_self

theorem le (h : Row source (t :: u :: ts)) : t.span.stop ≤ u.span.start :=
  List.rel_of_pairwise_cons h.ordered List.mem_cons_self

end Token.Row

namespace Parse

open Token Outline

variable {α β : Type}

/-- What was read behind a token: the outlines stand between it and the tokens that are left. -/
structure Placed (source : List Char) (before : Token) (os : List Outline) (q : Reading α) :
    Prop where
  row : Row source (q.last :: q.rest)
  start : before.span.start ≤ q.last.span.start
  fits : Fits source before.span.stop q.last.span.stop os

namespace Placed

variable {before t : Token} {os us : List Outline}

/-- Nothing was read. -/
theorem nothing {rest : List Token} (h : Row source (before :: rest)) (v : α) :
    Placed source before [] ⟨v, before, rest⟩ :=
  ⟨h, Nat.le_refl _, .nil (Nat.le_refl _)⟩

/-- A token was read that has no outline. -/
theorem token {rest : List Token} (h : Row source (before :: t :: rest)) (v : α) :
    Placed source before [] ⟨v, t, rest⟩ := by
  have hle := h.le
  have hlt := h.head.span.nonempty
  have hlt' := h.tail.head.span.nonempty
  refine ⟨h.tail, ?_, .nil ?_⟩ <;> dsimp only <;> omega

/-- A token was read as a part of its own. -/
theorem leaf {rest : List Token} (h : Row source (before :: t :: rest)) (v : α) :
    Placed source before [.mk t.mark.span t.mark.line []] ⟨v, t, rest⟩ := by
  have hleaf : Proper source (.mk t.mark.span t.mark.line []) := by
    refine .of_fits h.tail.head.span ?_ (.nil h.tail.head.span.nonempty.le)
    intro n hn
    obtain rfl := Option.mem_some_iff.1 hn
    exact h.tail.head.mark_lies
  exact ⟨h.tail, (token h v).start, .single h.le hleaf (Nat.le_refl _)⟩

/-- What was read in two parts is placed in order. -/
theorem append {q : Reading α} {r : Reading β} (h : Placed source before os q)
    (h' : Placed source q.last us r) : Placed source before (os ++ us) r :=
  ⟨h'.row, Nat.le_trans h.start h'.start, h.fits.append h'.fits⟩

/-- The last part may be read as something else. -/
theorem map {q : Reading α} (h : Placed source before os q) (v : β) :
    Placed source before os ⟨v, q.last, q.rest⟩ :=
  ⟨h.row, h.start, h.fits⟩

/-- A part that begins with a token and holds all that was read behind it, up to some byte. -/
theorem node {q : Reading α} {rest : List Token} {stop : Nat} {line : Option Nat}
    (hrow : Row source (before :: t :: rest)) (h : Placed source t os q)
    (hfits : Fits source t.span.stop stop os) (hstop : IsBoundary source stop)
    (hle : stop ≤ q.last.span.stop) (hline : ∀ n ∈ line, n = t.line) (v : β) :
    Placed source before [.mk ⟨t.span.start, stop⟩ line os] ⟨v, q.last, q.rest⟩ := by
  have ht := hrow.tail.head
  have hlt := ht.span.nonempty
  have hmid := hfits.le
  have hspan : Span.Lies source ⟨t.span.start, stop⟩ :=
    ⟨Nat.lt_of_lt_of_le hlt hmid, ht.span.start, hstop⟩
  have hnode : Proper source (.mk ⟨t.span.start, stop⟩ line os) := by
    refine .of_fits hspan (fun n hn => ⟨hspan, ?_, ?_⟩) (hfits.mono hlt.le (Nat.le_refl _))
    · rw [hline n hn]
      exact ht.line.ge
    · rw [hline n hn, ht.line]
      exact lineAt_mono source hspan.nonempty.le
  exact ⟨h.row, Nat.le_trans (token hrow v).start h.start, .single hrow.le hnode hle⟩

/-- A part that reaches from a token to the last one. It is on no line or on that of the token. -/
theorem spanning {q : Reading α} {rest : List Token} {line : Option Nat}
    (hrow : Row source (before :: t :: rest)) (h : Placed source t os q)
    (hline : ∀ n ∈ line, n = t.line) (v : β) :
    Placed source before [.mk (t.span.join q.last.span) line os] ⟨v, q.last, q.rest⟩ := by
  rw [Span.join_eq h.start h.fits.le]
  exact node hrow h h.fits h.row.head.span.stop (Nat.le_refl _) hline v

theorem unlined {q : Reading α} {rest : List Token} (hrow : Row source (before :: t :: rest))
    (h : Placed source t os q) (v : β) :
    Placed source before [.mk (t.span.join q.last.span) none os] ⟨v, q.last, q.rest⟩ :=
  spanning hrow h (fun n hn => (by cases hn)) v

/-- A part that begins with a token, on whose line it is, goes up to the last token read. -/
theorem lined {q : Reading α} {rest : List Token} (hrow : Row source (before :: t :: rest))
    (h : Placed source t os q) (v : β) :
    Placed source before [.mk (t.span.join q.last.span) t.line os] ⟨v, q.last, q.rest⟩ :=
  spanning hrow h (fun _ hn => (Option.mem_some_iff.1 hn).symm) v

/-- A part that reaches from a token to the end of the expression that was read behind it. -/
theorem operand {q : Reading α} {rest : List Token} {e : Expr}
    (hrow : Row source (before :: t :: rest)) (h : Placed source t [e.outline] q) (v : β) :
    Placed source before [.mk (t.span.join e.mark.span) t.line [e.outline]]
      ⟨v, q.last, q.rest⟩ := by
  obtain ⟨hle, he, hstop⟩ := h.fits.of_single
  have hlies := he.lies
  rw [Expr.span_outline] at hle hstop hlies
  have hlt := hrow.tail.head.span.nonempty
  have hlt' := hlies.nonempty
  have hfits : Fits source t.span.stop e.mark.span.stop [e.outline] :=
    .single ((Expr.span_outline e).symm ▸ hle) he (Expr.span_outline e ▸ Nat.le_refl _)
  rw [Span.join_eq (by omega) (by omega)]
  exact node hrow h hfits hlies.stop hstop (fun n hn => (Option.mem_some_iff.1 hn).symm) v

/-- Two operands with their operator between them. -/
theorem binary {left right : Expr} {last : Token} {rest : List Token} {q : Reading Expr}
    (op : BinaryOp) (h : Placed source before [left.outline] ⟨left, last, t :: rest⟩)
    (h' : Placed source t [right.outline] q) :
    Placed source before [(joinOperands op t left right).outline]
      ⟨joinOperands op t left right, q.last, q.rest⟩ := by
  obtain ⟨hbefore, hl, hlast⟩ := h.fits.of_single
  obtain ⟨hle, hr, hstop⟩ := h'.fits.of_single
  have ht := h.row.tail.head
  have hmid : last.span.stop ≤ t.span.start := h.row.le
  have hlt := hl.lies.nonempty
  have hlt' := hr.lies.nonempty
  have hlt'' := ht.span.nonempty
  have hjoin : (joinOperands op t left right).outline =
      .mk ⟨left.outline.span.start, right.outline.span.stop⟩ t.line
        [left.outline, right.outline] := by
    rw [joinOperands, Expr.outline, ← Expr.span_outline left, ← Expr.span_outline right,
      Span.join_eq] <;> dsimp only at hlast <;> omega
  have hnode : Proper source (joinOperands op t left right).outline := by
    rw [hjoin]
    refine .pair hl hr ?_ ?_ ?_
    · dsimp only at hlast
      omega
    · rw [ht.line]
      apply lineAt_mono
      dsimp only at hlast
      omega
    · rw [ht.line]
      apply lineAt_mono
      omega
  refine ⟨h'.row, Nat.le_trans h.start ?_, .single ?_ hnode ?_⟩
  · have hstart := h'.start
    have hlast' : last.span.start < last.span.stop := h.row.head.span.nonempty
    dsimp only
    omega
  · rw [hjoin]
    exact hbefore
  · rw [hjoin]
    exact hstop

end Placed

theorem placed_expect {stop before last : Token} {kind : Token.Kind} {what : Expectation}
    {ts : List Token} {q : Reading Token} (hrow : Row source (before :: ts))
    (h : outcome (expect stop kind what last ts) = .ok q) :
    Placed source before [] q ∧ q.value = q.last ∧ ts = q.last :: q.rest := by
  obtain ⟨t, rest, rfl, -, rfl⟩ := outcome_expect_eq_ok_iff.1 h
  exact ⟨.token hrow t, rfl, rfl⟩

theorem placed_parenthesised {stop before t : Token} {rest : List Token} {q : Reading Expr}
    (hrow : Row source (before :: t :: rest)) (h : parenthesised stop t rest = .ok q)
    (hin : ∀ q, outcome (level stop BinaryOp.levels rest) = .ok q →
      Placed source t [q.value.outline] q) :
    Placed source before [q.value.outline] q := by
  unfold parenthesised at h
  split at h
  · cases h
  split at h
  · cases h
  obtain ⟨inner, hinner, h⟩ := Except.bind_eq_ok_iff.1 h
  obtain ⟨close, hclose, h⟩ := Except.bind_eq_ok_iff.1 h
  cases h
  have hplaced := hin inner hinner
  have hopen : Placed source before [] ⟨(), t, _⟩ := .token hrow ()
  exact (hopen.append (hplaced.append (placed_expect hplaced.row hclose).1)).map inner.value

mutual

theorem placed_level {stop before : Token} {levels : List (List BinaryOp)} {ts : List Token}
    {q : Reading Expr} (hrow : Row source (before :: ts))
    (h : outcome (level stop levels ts) = .ok q) : Placed source before [q.value.outline] q := by
  cases levels with
  | nil => exact placed_unary hrow ((outcome_level_nil stop ts).symm.trans h)
  | cons ops tighter =>
    rw [outcome_level_cons] at h
    obtain ⟨first, hfirst, h⟩ := Except.bind_eq_ok_iff.1 h
    exact placed_levelTail (placed_level hrow hfirst) h
termination_by 10 * ts.length + levels.length + 2
decreasing_by
  · subst_vars
    simp only [List.length_nil]
    omega
  · subst_vars
    simp only [List.length_cons]
    omega
  · have := rest_length_lt hfirst
    subst_vars
    simp only [List.length_cons]
    omega

theorem placed_levelTail {stop before last : Token} {ops : List BinaryOp}
    {tighter : List (List BinaryOp)} {left : Expr} {ts : List Token} {q : Reading Expr}
    (hl : Placed source before [left.outline] (⟨left, last, ts⟩ : Reading Expr))
    (h : outcome (levelTail stop ops tighter left last ts) = .ok q) :
    Placed source before [q.value.outline] q := by
  cases ts with
  | nil =>
    rw [outcome_levelTail_nil] at h
    cases h
    exact hl
  | cons t rest =>
    cases hop : binaryOp? ops t with
    | none =>
      rw [outcome_levelTail_of_none hop] at h
      cases h
      exact hl
    | some op =>
      rw [outcome_levelTail_of_some hop] at h
      obtain ⟨_, -, h⟩ := Except.bind_eq_ok_iff.1 h
      obtain ⟨right, hright, h⟩ := Except.bind_eq_ok_iff.1 h
      exact placed_levelTail (.binary op hl (placed_level hl.row.tail hright)) h
termination_by 10 * ts.length + tighter.length
decreasing_by
  · subst_vars
    simp only [List.length_cons]
    omega
  · have := rest_length_lt hright
    subst_vars
    simp only [List.length_cons]
    omega

theorem placed_unary {stop before : Token} {ts : List Token} {q : Reading Expr}
    (hrow : Row source (before :: ts)) (h : outcome (unary stop ts) = .ok q) :
    Placed source before [q.value.outline] q := by
  cases ts with
  | nil =>
    rw [outcome_unary_nil] at h
    cases h
  | cons t rest =>
    cases hop : unaryOp? t rest with
    | none =>
      rw [outcome_unary_of_none hop] at h
      exact placed_primary hrow h
    | some op =>
      rw [outcome_unary_of_some hop] at h
      obtain ⟨_, -, h⟩ := Except.bind_eq_ok_iff.1 h
      obtain ⟨operand, hoperand, h⟩ := Except.bind_eq_ok_iff.1 h
      cases h
      exact .operand hrow (placed_unary hrow.tail hoperand) _
termination_by 10 * ts.length + 1
decreasing_by
  all_goals
    subst_vars
    simp only [List.length_cons]
    omega

theorem placed_primary {stop before t : Token} {rest : List Token} {q : Reading Expr}
    (hrow : Row source (before :: t :: rest)) (h : outcome (primary stop t rest) = .ok q) :
    Placed source before [q.value.outline] q := by
  rw [outcome_primary] at h
  split at h
  · obtain ⟨v, -, h⟩ := Except.bind_eq_ok_iff.1 h
    cases h
    exact .leaf hrow _
  split at h
  · cases h
    exact .leaf hrow _
  · exact placed_parenthesised hrow h fun q hq => placed_level hrow.tail hq
  · split at h
    · cases h
      exact .leaf hrow _
    · cases h
  · cases h
termination_by 10 * rest.length + 10
decreasing_by
  have : BinaryOp.levels.length = 6 := rfl
  omega

end

/-- An expression is placed from its first token to its last one. -/
theorem placed_expression {stop before : Token} {ts : List Token} {q : Reading Expr}
    (hrow : Row source (before :: ts)) (h : outcome (expression stop ts) = .ok q) :
    Placed source before [q.value.outline] q :=
  placed_level hrow h

/-- If items are well placed, so is a list of them. -/
theorem placed_of_readsList {separator : Token.Kind} {f : α → List Outline}
    {item : Token → List Token → Except Diagnostic (Reading α)}
    {list : Token → List Token → Except Diagnostic (Reading (List α))}
    (h : ReadsList separator item list)
    (hlt : ∀ {last ts q}, item last ts = .ok q → q.rest.length < ts.length)
    (hitem : ∀ {last ts q}, Row source (last :: ts) → item last ts = .ok q →
      Placed source last (f q.value) q)
    {last : Token} {ts : List Token} {q : Reading (List α)} (hrow : Row source (last :: ts))
    (hq : list last ts = .ok q) : Placed source last (q.value.flatMap f) q := by
  rw [h] at hq
  obtain ⟨first, hfirst, hq⟩ := Except.bind_eq_ok_iff.1 hq
  have ha := hitem hrow hfirst
  split at hq
  · cases hq
    rw [List.flatMap_singleton]
    exact ha.map _
  · rename_i s hs
    obtain ⟨t, us, hrest, -, rfl⟩ := accepted_eq_some_iff.1 hs
    obtain ⟨others, hothers, hq⟩ := Except.bind_eq_ok_iff.1 hq
    cases hq
    have hrow' : Row source (first.last :: t :: us) := hrest ▸ ha.row
    have hseparator : Placed source first.last [] ⟨(), t, us⟩ := .token hrow' ()
    have hothers' := placed_of_readsList h hlt hitem hrow'.tail hothers
    exact (ha.append (hseparator.append hothers')).map _
termination_by ts.length
decreasing_by
  have := hlt hfirst
  simp only [hrest, List.length_cons] at this
  omega

theorem placed_signedLiteral {stop last : Token} {factor : Option Number} {ts : List Token}
    {q : Reading Value} (hrow : Row source (last :: ts))
    (h : outcome (signedLiteral stop last factor ts) = .ok q) : Placed source last [] q := by
  rw [outcome_signedLiteral] at h
  split at h
  · cases h
  split at h
  · obtain ⟨v, -, h⟩ := Except.bind_eq_ok_iff.1 h
    cases h
    exact .token hrow _
  · cases h

theorem placed_initialValue {stop last : Token} {ts : List Token} {q : Reading Value}
    (hrow : Row source (last :: ts)) (h : outcome (initialValue stop last ts) = .ok q) :
    Placed source last [] q := by
  rw [outcome_initialValue] at h
  split at h
  · exact placed_signedLiteral hrow h
  · rename_i t rest
    split at h
    · have hsign : Placed source last [] ⟨(), t, rest⟩ := .token hrow ()
      exact hsign.append (placed_signedLiteral hrow.tail h)
    · exact placed_signedLiteral hrow h

theorem placed_declarator {stop last : Token} {type : DataType} {ts : List Token}
    {q : Reading Declarator} (hrow : Row source (last :: ts))
    (h : outcome (declarator stop type last ts) = .ok q) :
    Placed source last [q.value.outline] q := by
  rw [outcome_declarator] at h
  obtain ⟨name, hname, h⟩ := Except.bind_eq_ok_iff.1 h
  obtain ⟨t, rest, rfl, -, rfl⟩ := outcome_expect_eq_ok_iff.1 hname
  dsimp only at h
  split at h
  · cases h
    exact .leaf hrow _
  · rename_i equal hequal
    obtain ⟨e, us, rfl, -, rfl⟩ := accepted_eq_some_iff.1 hequal
    obtain ⟨initial, hinitial, h⟩ := Except.bind_eq_ok_iff.1 h
    cases h
    have hequal : Placed source t [] ⟨(), e, us⟩ := .token hrow.tail ()
    exact (hequal.append (placed_initialValue hrow.tail.tail hinitial)).lined hrow _

/-- A declaration is placed around its declarators. -/
theorem placed_declaration {single : Bool} {stop before start : Token} {ts : List Token}
    {q : Reading Stmt} (hrow : Row source (before :: start :: ts))
    (h : outcome (declaration single stop start ts) = .ok q) :
    Placed source before [q.value.outline] q := by
  rw [outcome_declaration] at h
  split at h
  · cases h
  split at h
  · cases h
  · rename_i t rest _ type _
    obtain ⟨list, hlist, h⟩ := Except.bind_eq_ok_iff.1 h
    have htype : Placed source start [] ⟨(), t, rest⟩ := .token hrow.tail ()
    have hds : Placed source t (list.value.map (·.outline)) list := by
      split at hlist
      · obtain ⟨d, hd, hlist⟩ := Except.bind_eq_ok_iff.1 hlist
        cases hlist
        exact (placed_declarator hrow.tail.tail hd).map _
      · rw [List.map_eq_flatMap]
        exact placed_of_readsList (readsList_declarators stop type) rest_length_lt
          placed_declarator hrow.tail.tail hlist
    cases h
    exact (htype.append hds).unlined hrow _

theorem placed_furtherTargets (last : Token) (ts : List Token) (hrow : Row source (last :: ts)) :
    Placed source last [] (furtherTargets last ts).reading := by
  fun_induction furtherTargets last ts with
  | case1 => exact .nothing hrow _
  | case2 => exact .nothing hrow _
  | case3 last t equal rest h more ih =>
    have hname : Placed source last [] ⟨(), t, equal :: rest⟩ := .token hrow ()
    have hequal : Placed source t [] ⟨(), equal, rest⟩ := .token hrow.tail ()
    exact (hname.append (hequal.append (ih hrow.tail.tail))).map _
  | case4 => exact .nothing hrow _

theorem placed_assignment {stop last : Token} {ts : List Token} {q : Reading Assignment}
    (hrow : Row source (last :: ts)) (h : outcome (assignment stop last ts) = .ok q) :
    Placed source last [q.value.outline] q := by
  rw [outcome_assignment] at h
  obtain ⟨first, hfirst, h⟩ := Except.bind_eq_ok_iff.1 h
  obtain ⟨equal, hequal, h⟩ := Except.bind_eq_ok_iff.1 h
  obtain ⟨value, hvalue, h⟩ := Except.bind_eq_ok_iff.1 h
  obtain ⟨t, us, rfl, -, rfl⟩ := outcome_expect_eq_ok_iff.1 hfirst
  obtain ⟨e, vs, rfl, -, rfl⟩ := outcome_expect_eq_ok_iff.1 hequal
  cases h
  have hsign : Placed source t [] ⟨(), e, vs⟩ := .token hrow.tail ()
  have htargets := placed_furtherTargets e vs hrow.tail.tail
  have hvalue' := placed_expression htargets.row hvalue
  exact (hsign.append (htargets.append hvalue')).operand hrow _

theorem placed_output {stop before start : Token} {ts : List Token} {q : Reading Stmt}
    (hrow : Row source (before :: start :: ts)) (h : outcome (output stop start ts) = .ok q) :
    Placed source before [q.value.outline] q := by
  rw [outcome_output] at h
  obtain ⟨colon, hcolon, h⟩ := Except.bind_eq_ok_iff.1 h
  obtain ⟨values, hvalues, h⟩ := Except.bind_eq_ok_iff.1 h
  cases h
  have hcolon' := (placed_expect hrow.tail hcolon).1
  have hes : Placed source colon.last (values.value.map (·.outline)) values := by
    rw [List.map_eq_flatMap]
    exact placed_of_readsList (readsList_outputValues stop) rest_length_lt placed_expression
      hcolon'.row hvalues
  exact (hcolon'.append hes).unlined hrow _

theorem placed_inputTarget {stop last : Token} {ts : List Token} {q : Reading String}
    (hrow : Row source (last :: ts)) (h : inputTarget stop last ts = .ok q) :
    Placed source last [] q := by
  obtain ⟨name, hname, h⟩ := Except.bind_eq_ok_iff.1 h
  cases h
  exact (placed_expect hrow hname).1.map _

theorem placed_input {stop before start : Token} {ts : List Token} {q : Reading Stmt}
    (hrow : Row source (before :: start :: ts)) (h : outcome (input stop start ts) = .ok q) :
    Placed source before [q.value.outline] q := by
  rw [outcome_input] at h
  obtain ⟨colon, hcolon, h⟩ := Except.bind_eq_ok_iff.1 h
  obtain ⟨names, hnames, h⟩ := Except.bind_eq_ok_iff.1 h
  cases h
  have hcolon' := (placed_expect hrow.tail hcolon).1
  have hnames' : Placed source colon.last (names.value.flatMap fun _ => []) names :=
    placed_of_readsList (readsList_inputTargets stop) rest_length_lt_of_inputTarget
      placed_inputTarget hcolon'.row hnames
  rw [List.flatMap_eq_nil_iff.2 fun _ _ => rfl] at hnames'
  exact (hcolon'.append hnames').lined hrow _

/-- A name and the two plus signs behind it stand for the parts of the assignment. -/
theorem placed_incrementOf {last name operator : Token} {rest : List Token}
    (hrow : Row source (last :: name :: operator :: rest)) :
    Placed source last [(incrementOf name operator).outline]
      ⟨incrementOf name operator, operator, rest⟩ := by
  have hname : Placed source last _ ⟨(), name, operator :: rest⟩ := .leaf hrow ()
  have hone : Placed source name _ ⟨(), operator, rest⟩ := .leaf hrow.tail ()
  have hle := hrow.tail.le
  have hn := hrow.tail.head
  have ho := hrow.tail.tail.head
  have hlt := hn.span.nonempty
  have hlt' := ho.span.nonempty
  have hjoin : name.span.join operator.span = ⟨name.span.start, operator.span.stop⟩ :=
    Span.join_eq (by omega) (by omega)
  have hsum : Proper source (.mk ⟨name.span.start, operator.span.stop⟩ operator.line
      [.mk name.mark.span name.mark.line [], .mk operator.mark.span operator.mark.line []]) :=
    .pair hname.fits.of_single.2.1 hone.fits.of_single.2.1 hle
      (ho.line ▸ lineAt_mono source (by dsimp only [Outline.span, Token.mark]; omega))
      (ho.line ▸ lineAt_mono source (by dsimp only [Outline.span, Token.mark]; omega))
  have hnode : Proper source (incrementOf name operator).outline := by
    rw [incrementOf, Assignment.outline, hjoin]
    exact hsum.only hn.line.ge (hn.line ▸ lineAt_mono source (by dsimp only [Outline.span]; omega))
  refine ⟨hone.row, Nat.le_trans hname.start hone.start, .single ?_ hnode ?_⟩
  · rw [incrementOf, Assignment.outline, hjoin]
    exact hrow.le
  · rw [incrementOf, Assignment.outline, hjoin]
    exact Nat.le_refl _

theorem placed_loopInitializer {stop last : Token} {ts : List Token} {q : Reading Stmt}
    (hrow : Row source (last :: ts)) (h : outcome (loopInitializer stop last ts) = .ok q) :
    Placed source last [q.value.outline] q := by
  rw [outcome_loopInitializer] at h
  split at h
  · rename_i start hstart
    obtain ⟨t, us, rfl, -, rfl⟩ := accepted_eq_some_iff.1 hstart
    exact placed_declaration hrow h
  split at h
  · obtain ⟨a, ha, h⟩ := Except.bind_eq_ok_iff.1 h
    cases h
    exact (placed_assignment hrow ha).map _
  · cases h

theorem placed_loopIncrement {stop last : Token} {ts : List Token} {q : Reading Assignment}
    (hrow : Row source (last :: ts)) (h : outcome (loopIncrement stop last ts) = .ok q) :
    Placed source last [q.value.outline] q := by
  by_cases hi : ∃ t rest, ts = t :: rest ∧ t.kind = .identifier ∧
      front? rest = some (.symbol .increment)
  · obtain ⟨t, us, rfl, ht, hf⟩ := hi
    obtain ⟨operator, rest, rfl, ho⟩ := exists_cons_of_front? hf
    rw [outcome_loopIncrement_of_increment stop last ht ho] at h
    cases h
    exact placed_incrementOf hrow
  · rw [outcome_loopIncrement_of_ne fun t rest hts ht hf => hi ⟨t, rest, hts, ht, hf⟩] at h
    exact placed_assignment hrow h

/-- Reading the header of a loop gives its three clauses in their order. -/
theorem placed_loopHeader {stop last : Token} {ts : List Token} {q : Reading LoopHeader}
    (hrow : Row source (last :: ts)) (h : outcome (loopHeader stop last ts) = .ok q) :
    Placed source last
      [q.value.initializer.outline, q.value.condition.outline, q.value.increment.outline] q := by
  rw [outcome_loopHeader] at h
  obtain ⟨start, hstart, h⟩ := Except.bind_eq_ok_iff.1 h
  obtain ⟨init, hinit, h⟩ := Except.bind_eq_ok_iff.1 h
  obtain ⟨comma, hcomma, h⟩ := Except.bind_eq_ok_iff.1 h
  obtain ⟨condition, hcondition, h⟩ := Except.bind_eq_ok_iff.1 h
  obtain ⟨comma', hcomma', h⟩ := Except.bind_eq_ok_iff.1 h
  obtain ⟨increment, hincrement, h⟩ := Except.bind_eq_ok_iff.1 h
  obtain ⟨close, hclose, h⟩ := Except.bind_eq_ok_iff.1 h
  cases h
  have h₁ := (placed_expect hrow hstart).1
  have h₂ := placed_loopInitializer h₁.row hinit
  have h₃ := (placed_expect h₂.row hcomma).1
  have h₄ := placed_expression h₃.row hcondition
  have h₅ := (placed_expect h₄.row hcomma').1
  have h₆ := placed_loopIncrement h₅.row hincrement
  have h₇ := (placed_expect h₆.row hclose).1
  exact (h₁.append (h₂.append (h₃.append (h₄.append (h₅.append (h₆.append h₇)))))).map _

mutual

/-- A statement is placed around its parts. -/
theorem placed_statement {stop last : Token} {ts : List Token} {q : Reading Stmt}
    (hrow : Row source (last :: ts)) (h : outcome (Parse.statement stop last ts) = .ok q) :
    Placed source last [q.value.outline] q := by
  cases ts with
  | nil =>
    rw [outcome_statement_nil] at h
    cases h
  | cons t rest =>
    rw [outcome_statement_cons] at h
    unfold statementAt at h
    split at h
    · exact placed_declaration hrow h
    · obtain ⟨a, ha, h⟩ := Except.bind_eq_ok_iff.1 h
      cases h
      exact (placed_assignment hrow ha).map _
    · exact placed_output hrow h
    · exact placed_input hrow h
    · exact placed_conditional hrow h
    · exact placed_loop hrow h
    · cases h
    · cases h
    · cases h
termination_by 4 * ts.length + 2
decreasing_by
  all_goals
    subst_vars
    simp only [List.length_cons]
    omega

theorem placed_conditional {stop before start : Token} {ts : List Token} {q : Reading Stmt}
    (hrow : Row source (before :: start :: ts))
    (h : outcome (conditional stop start ts) = .ok q) :
    Placed source before [q.value.outline] q := by
  rw [outcome_conditional] at h
  obtain ⟨first, hfirst, h⟩ := Except.bind_eq_ok_iff.1 h
  obtain ⟨others, hothers, h⟩ := Except.bind_eq_ok_iff.1 h
  have hf := placed_branch hrow.tail hfirst
  have hb := placed_branches hf.row hothers
  split at h
  · cases h
    exact (hf.append (hb.append (.nothing hb.row ()))).unlined hrow _
  · rename_i word hword
    obtain ⟨w, us, hrest, -, rfl⟩ := accepted_eq_some_iff.1 hword
    obtain ⟨otherwise, hotherwise, h⟩ := Except.bind_eq_ok_iff.1 h
    cases h
    have hrow' : Row source (others.last :: w :: us) := hrest ▸ hb.row
    have hword : Placed source others.last [] ⟨(), w, us⟩ := .token hrow' ()
    have hblock := (placed_block hrow'.tail hotherwise).1
    exact (hf.append (hb.append (hword.append hblock))).unlined hrow _
termination_by 4 * ts.length + 2
decreasing_by
  · omega
  · have := rest_length_lt hfirst
    omega
  · have := rest_length_lt hfirst
    have := rest_length_lt hothers
    simp only [hrest, List.length_cons] at this
    omega

theorem placed_branches {stop last : Token} {ts : List Token} {q : Reading (List Branch)}
    (hrow : Row source (last :: ts)) (h : outcome (branches stop last ts) = .ok q) :
    Placed source last (Branch.outlinesAll q.value) q := by
  rw [outcome_branches] at h
  split at h
  · cases h
    exact .nothing hrow _
  · rename_i word hword
    obtain ⟨w, us, rfl, -, rfl⟩ := accepted_eq_some_iff.1 hword
    obtain ⟨first, hfirst, h⟩ := Except.bind_eq_ok_iff.1 h
    obtain ⟨others, hothers, h⟩ := Except.bind_eq_ok_iff.1 h
    cases h
    have hword : Placed source last [] ⟨(), w, us⟩ := .token hrow ()
    have hf := placed_branch hrow.tail hfirst
    exact (hword.append (hf.append (placed_branches hf.row hothers))).map _
termination_by 4 * ts.length
decreasing_by
  · subst_vars
    simp only [List.length_cons]
    omega
  · have := rest_length_lt hfirst
    subst_vars
    simp only [List.length_cons] at this ⊢
    omega

theorem placed_branch {stop last : Token} {owner : Owner} {ts : List Token} {q : Reading Branch}
    (hrow : Row source (last :: ts)) (h : outcome (branch stop owner ts) = .ok q) :
    Placed source last q.value.outlines q := by
  rw [outcome_branch] at h
  split at h
  · obtain ⟨condition, hcondition, h⟩ := Except.bind_eq_ok_iff.1 h
    obtain ⟨body, hbody, h⟩ := Except.bind_eq_ok_iff.1 h
    cases h
    have hc := placed_expression hrow hcondition
    exact (hc.append (placed_block hc.row hbody).1).map _
  · cases h
termination_by 4 * ts.length + 1
decreasing_by
  have := rest_length_lt hcondition
  omega

theorem placed_loop {stop before start : Token} {ts : List Token} {q : Reading Stmt}
    (hrow : Row source (before :: start :: ts)) (h : outcome (loop stop start ts) = .ok q) :
    Placed source before [q.value.outline] q := by
  rw [outcome_loop] at h
  obtain ⟨word, hword, h⟩ := Except.bind_eq_ok_iff.1 h
  obtain ⟨header, hheader, h⟩ := Except.bind_eq_ok_iff.1 h
  obtain ⟨body, hbody, h⟩ := Except.bind_eq_ok_iff.1 h
  cases h
  have hw := (placed_expect hrow.tail hword).1
  have hh := placed_loopHeader hw.row hheader
  obtain ⟨hb, hstop⟩ := placed_block hh.row hbody
  have hall := hw.append (hh.append hb)
  have hle := (hw.append hh).fits.le
  obtain ⟨hle', hproper, -⟩ := hb.fits.of_single
  have hlt := hproper.lies.nonempty
  have hlt' := hrow.tail.head.span.nonempty
  rw [Block.span_outline] at hle' hlt
  have hjoin : start.span.join body.value.span = start.span.join body.last.span := by
    rw [Span.join_eq (by omega) (by omega), Span.join_eq hall.start hall.fits.le, hstop]
  rw [Stmt.outline, hjoin]
  exact hall.unlined hrow _
termination_by 4 * ts.length + 2
decreasing_by
  have := rest_length_lt hword
  have := rest_length_lt hheader
  omega

theorem placed_block {stop last : Token} {owner : Owner} {ts : List Token} {q : Reading Block}
    (hrow : Row source (last :: ts)) (h : outcome (block stop owner last ts) = .ok q) :
    Placed source last [q.value.outline] q ∧ q.value.span.stop = q.last.span.stop := by
  rw [outcome_block] at h
  obtain ⟨word, hword, h⟩ := Except.bind_eq_ok_iff.1 h
  obtain ⟨start, hstart, h⟩ := Except.bind_eq_ok_iff.1 h
  obtain ⟨body, hbody, h⟩ := Except.bind_eq_ok_iff.1 h
  obtain ⟨close, hclose, h⟩ := Except.bind_eq_ok_iff.1 h
  cases h
  obtain ⟨w, us, rfl, -, rfl⟩ := outcome_expect_eq_ok_iff.1 hword
  obtain ⟨s, vs, rfl, -, rfl⟩ := outcome_expect_eq_ok_iff.1 hstart
  obtain ⟨c, ws, hrest, -, rfl⟩ := outcome_expect_eq_ok_iff.1 hclose
  have hopen : Placed source w [] ⟨(), s, vs⟩ := .token hrow.tail ()
  have hss := placed_statements hrow.tail.tail hbody
  have hclose : Placed source body.last [] ⟨(), c, ws⟩ := .token (hrest ▸ hss.row) ()
  have hall := hopen.append (hss.append hclose)
  rw [List.nil_append, List.append_nil] at hall
  refine ⟨hall.unlined hrow _, ?_⟩
  rw [Block.span, Span.join_eq hall.start hall.fits.le]
termination_by 4 * ts.length
decreasing_by
  subst_vars
  simp only [List.length_cons]
  omega

/-- Statements are placed one after another. -/
theorem placed_statements {stop last : Token} {ts : List Token} {q : Reading (List Stmt)}
    (hrow : Row source (last :: ts)) (h : outcome (statements stop last ts) = .ok q) :
    Placed source last (Stmt.outlines q.value) q := by
  by_cases hend : AtEnd ts
  · rw [outcome_statements_of_atEnd hend] at h
    cases h
    exact .nothing hrow _
  · rw [outcome_statements_of_not_atEnd hend] at h
    obtain ⟨first, hfirst, h⟩ := Except.bind_eq_ok_iff.1 h
    obtain ⟨others, hothers, h⟩ := Except.bind_eq_ok_iff.1 h
    cases h
    have hf := placed_statement hrow hfirst
    exact (hf.append (placed_statements hf.row hothers)).map _
termination_by 4 * ts.length + 3
decreasing_by
  · omega
  · have := rest_length_lt hfirst
    omega

end

end Parse

end BisayaPlus
