import BisayaPlus.Proofs.Comparison
import BisayaPlus.Proofs.CountingHeader
import BisayaPlus.Proofs.Footprint
import BisayaPlus.Proofs.Turns

/-!
Loops that count. If the body leaves the counting name alone, its value at the start of a turn is
the first integer plus the number of turns before. So the body runs once for each integer up to the
last one, and the name ends one above it, or at the first integer if that is larger.
-/

namespace BisayaPlus

open BisayaPlus.Action

def Machine.update (m : Machine) (x : String) (v : Value) : Machine :=
  { m with store := m.store.update x v }

/-- The block ran a number of times in sequence, and before each run the name got the next integer,
beginning with the given one. -/
inductive Block.Counts (body : Block) (i : String) (a : Int) (m : Machine) : Nat → Machine → Prop
  | zero : Counts body i a m 0 m
  | succ {k : Nat} {m₁ m₂ : Machine} (h : Counts body i a m k m₁)
      (hrun : body.Ends (m₁.update i (.number (.ofInt (a + k)))) (.ok () m₂)) :
      Counts body i a m (k + 1) m₂

/-- The machines on which a block begins when it is run in this way, from some run on. -/
inductive CountedStarts (body : Block) (i : String) (a : Int) (m : Machine) :
    Nat → List Machine → Prop
  | nil {k : Nat} : CountedStarts body i a m k []
  | cons {k : Nat} {m₁ : Machine} {starts : List Machine} (h : body.Counts i a m k m₁)
      (hs : CountedStarts body i a m (k + 1) starts) :
      CountedStarts body i a m k (m₁.update i (.number (.ofInt (a + k))) :: starts)

/-- A counting loop ran on a machine and left another one. The turns that it took began where the
sequence of runs does, with the next integer in the name, and there was one for each integer. -/
structure CountedRun (header : LoopHeader) (body : Block) (i : String) (a b : Int)
    (m m' : Machine) : Prop where
  turns : ∃ m₀ starts, header.initializer.Ends m (.ok () m₀) ∧
    Turns header.condition header.increment body m₀ starts m' ∧
    starts.length = (b - a + 1).toNat ∧
    ∀ (k : Nat) start, starts[k]? = some start →
      start.store.get? i = some (.number (.ofInt (a + k))) ∧
      ∃ n, body.Counts i a m k n ∧ start = n.update i (.number (.ofInt (a + k)))
  sequence : ∃ n, body.Counts i a m (b - a + 1).toNat n ∧
    m' = n.update i (.number (.ofInt (max a (b + 1))))
  final : m'.store.get? i = some (.number (.ofInt (max a (b + 1))))

structure LoopHeader.CountsTo (header : LoopHeader) (i : String) (a b : Int) : Prop where
  initializer : ∀ m : Machine, m.store.contains i = true →
    header.initializer.Ends m (.ok () (m.update i (.number (.ofInt a))))
  condition : ∀ (s : Store) (n : Int), n.natAbs ≤ 2 ^ 53 →
    s.get? i = some (.number (.ofInt n)) → header.condition.test s = .ok (decide (n ≤ b))
  increment : ∀ (m : Machine) (n : Int), n.natAbs ≤ 2 ^ 53 → (n + 1).natAbs ≤ 2 ^ 53 →
    m.store.get? i = some (.number (.ofInt n)) →
    header.increment.exec m = .ok () (m.update i (.number (.ofInt (n + 1))))

namespace Expr

variable {s : Store} {e e' : Expr} {v : Value}

/-- The places of an expression's parts have nothing to do with its value. -/
theorem eval_unmarked_eq_ok_iff : e.unmarked.eval s = .ok v ↔ e.eval s = .ok v := by
  induction e generalizing v with
  | literal w m => exact Iff.rfl
  | name x m =>
    show (s.get x).mapError _ = .ok v ↔ (s.get x).mapError _ = .ok v
    rw [Except.mapError_eq_ok_iff, Except.mapError_eq_ok_iff]
  | unary op e m ih =>
    show (e.unmarked.eval s >>= fun w => (op.apply w).mapError _) = .ok v ↔
      (e.eval s >>= fun w => (op.apply w).mapError _) = .ok v
    simp only [Except.bind_eq_ok_iff, Except.mapError_eq_ok_iff, ih]
  | binary op l r m ihl ihr =>
    show (l.unmarked.eval s >>= fun w => r.unmarked.eval s >>= fun w' =>
        (op.apply w w').mapError _) = .ok v ↔
      (l.eval s >>= fun w => r.eval s >>= fun w' => (op.apply w w').mapError _) = .ok v
    simp only [Except.bind_eq_ok_iff, Except.mapError_eq_ok_iff, ihl, ihr]

/-- The value of an expression does not depend on its marks. -/
theorem eval_eq_ok_of_unmarked (h : e.unmarked = e'.unmarked) (he : e'.eval s = .ok v) :
    e.eval s = .ok v := by
  rw [← eval_unmarked_eq_ok_iff, h, eval_unmarked_eq_ok_iff]
  exact he

theorem test_of_eval {b : Bool} (h : e.eval s = .ok (.boolean b)) : e.test s = .ok b := by
  rw [test, h]
  rfl

theorem eval_name {x : String} (h : s.get? x = some v) (m : Mark) :
    (Expr.name x m).eval s = .ok v := by
  rw [eval, Store.get, h]
  rfl

theorem eval_integer (s : Store) (n : Int) :
    (Expr.integer n).eval s = .ok (.number (.ofInt n)) := by
  unfold integer Number.ofInt
  split
  · rfl
  · rfl

theorem eval_binary {l r : Expr} {op : BinaryOp} {u w : Value} (hl : l.eval s = .ok u)
    (hr : r.eval s = .ok w) (h : op.apply u w = .ok v) (m : Mark) :
    (Expr.binary op l r m).eval s = .ok v := by
  rw [eval, hl, hr]
  show (op.apply u w).mapError _ = .ok v
  rw [h]
  rfl

end Expr

namespace BinaryOp

variable {m n : Int}

/-- Numbers of exact integers are compared as the integers are. -/
theorem apply_lessEqual_ofInt (hm : m.natAbs ≤ 2 ^ 53) (hn : n.natAbs ≤ 2 ^ 53) :
    lessEqual.apply (.number (.ofInt m)) (.number (.ofInt n)) =
      .ok (.boolean (decide (m ≤ n))) := by
  have horder : (Value.number (.ofInt m)).order? (.number (.ofInt n)) =
      .ok (some (compare m n)) := by
    rw [← Number.order?_ofInt hm hn]
    rfl
  have hholds : (compare m n != .gt) = decide (m ≤ n) := by
    rw [Bool.eq_iff_iff, decide_eq_true_iff, bne_iff_ne, ne_eq, Int.compare_eq_gt, Int.not_lt]
  rw [← hholds]
  exact lessEqual.comparison_of_order? (· != .gt) horder

/-- One more than the number of an integer is that of the next, if both are exact. -/
theorem apply_add_one_ofInt (hn : n.natAbs ≤ 2 ^ 53) (hsucc : (n + 1).natAbs ≤ 2 ^ 53) :
    add.apply (.number (.ofInt n)) (.number (.ofNat 1)) = .ok (.number (.ofInt (n + 1))) := by
  show add.checked ((Number.ofInt n).add (.ofNat 1)) = _
  rw [Number.ofInt_add_one hn hsucc, checked, if_pos (Number.isFinite_ofInt hsucc)]

end BinaryOp

section Assignments

variable {m : Machine} {x : String} {v : Value}

theorem Assignment.exec_of_eval {a : Assignment} (ha : a.targets = [x])
    (hv : a.value.eval m.store = .ok v) (hx : m.store.contains x = true) :
    a.exec m = .ok () (m.update x v) := by
  have hassign : onStore (·.assign x v) a.mark m = .ok () (m.update x v) := by
    rw [onStore, Store.assign, if_pos hx]
    rfl
  rw [exec, bind_apply_of_ok (ofStore_of_ok hv), ha]
  exact bind_apply_of_ok hassign

theorem Stmt.ends_assignment {a : Assignment} (ha : a.targets = [x])
    (hv : a.value.eval m.store = .ok v) (hx : m.store.contains x = true) :
    (Stmt.assignment a).Ends m (.ok () (m.update x v)) :=
  ⟨0, a.exec_of_eval ha hv hx, rfl⟩

theorem Store.contains_of_get? {s : Store} (h : s.get? x = some v) : s.contains x = true := by
  rw [contains_eq_isSome_get?, h]
  rfl

theorem Machine.contains_update (m : Machine) (x y : String) (v : Value) :
    (m.update x v).store.contains y = m.store.contains y := by
  rw [Store.contains_eq_isSome_get?, Store.contains_eq_isSome_get?, update, Store.get?_update]
  split
  · rename_i hxy
    rw [hxy, Option.isSome_map]
  · rfl

theorem Machine.get?_update (hx : m.store.contains x = true) (v : Value) :
    (m.update x v).store.get? x = some v := by
  rw [Store.contains_eq_isSome_get?] at hx
  obtain ⟨w, hw⟩ := Option.isSome_iff_exists.1 hx
  rw [update, Store.get?_update, if_pos rfl, hw]
  rfl

end Assignments

section Header

variable {i : String} {a b : Int} {header : LoopHeader}

/-- A statement that is an assignment without its places is one. -/
theorem Stmt.exists_assignment_of_unmarked {s : Stmt} {a : Assignment}
    (h : s.unmarked = .assignment a) : ∃ a', s = .assignment a' ∧ a'.unmarked = a := by
  cases s with
  | assignment a' => exact ⟨a', rfl, Stmt.assignment.inj h⟩
  | declaration | output | input | conditional | loop => cases h

/-- The clauses that are read from a counting header do what they say. -/
theorem LoopHeader.countsTo_of_unmarked (hb : b.natAbs ≤ 2 ^ 53)
    (h : header.unmarked = (LoopHeader.counting i a b).unmarked) : header.CountsTo i a b := by
  obtain ⟨initializer, condition, increment⟩ := header
  obtain ⟨hinitializer, hcondition, hincrement⟩ := LoopHeader.mk.inj h
  obtain ⟨first, rfl, hfirst⟩ := Stmt.exists_assignment_of_unmarked hinitializer
  obtain ⟨htargets, hvalue, -⟩ := Assignment.mk.inj hfirst
  obtain ⟨htargets', hvalue', -⟩ := Assignment.mk.inj hincrement
  constructor
  · intro m hi
    have hfirst := Expr.eval_eq_ok_of_unmarked hvalue (Expr.eval_integer m.store a)
    exact Stmt.ends_assignment htargets hfirst hi
  · intro s n hn hi
    have hbound := Expr.eval_binary (Expr.eval_name hi .blank) (Expr.eval_integer s b)
      (BinaryOp.apply_lessEqual_ofInt hn hb) .blank
    exact Expr.test_of_eval (Expr.eval_eq_ok_of_unmarked hcondition hbound)
  · intro m n hn hsucc hi
    have hone : (Expr.literal (.number (.ofNat 1)) .blank).eval m.store =
        .ok (.number (.ofNat 1)) := rfl
    have hsuccessor := Expr.eval_binary (Expr.eval_name hi .blank) hone
      (BinaryOp.apply_add_one_ofInt hn hsucc) .blank
    exact increment.exec_of_eval htargets' (Expr.eval_eq_ok_of_unmarked hvalue' hsuccessor)
      (Store.contains_of_get? hi)

end Header

section Runs

variable {body : Block} {i : String} {a b : Int} {m m' : Machine}

theorem Block.covered (body : Block) :
    Covered (body.written ++ body.exprs.flatMap Expr.names) body.written body.exprs
      body.written where
  mention e he _ hx := List.mem_append_right _ (List.mem_flatMap.2 ⟨e, he, hx⟩)
  known _ hx := List.mem_append_left _ hx
  allowed _ hx := hx

/-- A block leaves the names alone that it does not write. -/
theorem Block.Ends.get?_eq {x : String} (h : body.Ends m (.ok () m')) (hx : x ∉ body.written) :
    m'.store.get? x = m.store.get? x := by
  obtain ⟨budget, hexec, -⟩ := h
  have hframe := (Block.within_exec body.covered budget).frame m x hx
  rw [hexec] at hframe
  exact hframe

/-- The counting name stays declared. -/
theorem Block.Counts.contains {k : Nat} (h : body.Counts i a m k m') (hfree : i ∉ body.written)
    (hi : m.store.contains i = true) : m'.store.contains i = true := by
  induction h with
  | zero => exact hi
  | succ h hrun ih =>
    apply Store.contains_of_get?
    exact (hrun.get?_eq hfree).trans (Machine.get?_update ih _)

/-- Where a run of the body begins, the earlier runs were made in sequence and the name has its
integer. -/
theorem CountedStarts.exists_counts {first k : Nat} {starts : List Machine} {start : Machine}
    (h : CountedStarts body i a m first starts) (hk : starts[k]? = some start) :
    ∃ m₁, body.Counts i a m (first + k) m₁ ∧
      start = m₁.update i (.number (.ofInt (a + (first + k : Nat)))) := by
  induction h generalizing k with
  | nil => cases hk
  | @cons first m₁ starts hcounts _ ih =>
    cases k with
    | zero =>
      obtain rfl := Option.some.inj hk
      exact ⟨m₁, hcounts, rfl⟩
    | succ k =>
      have hsucc : first + (k + 1) = first + 1 + k := by omega
      rw [hsucc]
      exact ih hk

/-- From each turn on, a turn follows for each of the integers that are left. -/
theorem exists_turns_of_counts {header : LoopHeader} (hheader : header.CountsTo i a b)
    (ha : a.natAbs < 2 ^ 53) (hb : b.natAbs < 2 ^ 53) (hi : m.store.contains i = true)
    (hfree : i ∉ body.written)
    (hsucceeds : ∀ (k : Nat) m₁, a + k ≤ b → body.Counts i a m k m₁ →
      ∃ m₂, body.Ends (m₁.update i (.number (.ofInt (a + k)))) (.ok () m₂))
    {left k : Nat} (hk : k + left = (b - a + 1).toNat) {m₁ : Machine}
    (hcounts : body.Counts i a m k m₁) :
    ∃ m' starts, body.Counts i a m (k + left) m' ∧ starts.length = left ∧
      CountedStarts body i a m k starts ∧
      Turns header.condition header.increment body (m₁.update i (.number (.ofInt (a + k)))) starts
        (m'.update i (.number (.ofInt (a + (k + left : Nat))))) := by
  -- The integer of a turn is exact, because it is at most one above the last one, or the first.
  induction left generalizing k m₁ with
  | zero =>
    have hget := Machine.get?_update (hcounts.contains hfree hi) (.number (.ofInt (a + k)))
    have htest := hheader.condition _ _ (by omega) hget
    have hfalse : decide (a + k ≤ b) = false := decide_eq_false (by omega)
    rw [hfalse] at htest
    exact ⟨m₁, [], hcounts, rfl, .nil, .done htest⟩
  | succ left ih =>
    have hget := Machine.get?_update (hcounts.contains hfree hi) (.number (.ofInt (a + k)))
    have htest := hheader.condition _ _ (by omega) hget
    have hle : a + k ≤ b := by omega
    rw [decide_eq_true hle] at htest
    obtain ⟨m₂, hrun⟩ := hsucceeds k m₁ hle hcounts
    have hnext := hheader.increment m₂ (a + k) (by omega) (by omega)
      ((hrun.get?_eq hfree).trans hget)
    have hsucc : a + k + 1 = a + (k + 1 : Nat) := by omega
    have hleft : k + (left + 1) = k + 1 + left := by omega
    rw [hsucc] at hnext
    obtain ⟨m', starts, hcounts', hlength, hstarts, hturns⟩ := ih (by omega) (hcounts.succ hrun)
    rw [hleft]
    exact ⟨m', _, hcounts', congrArg (· + 1) hlength, .cons hcounts hstarts,
      .turn htest hrun hnext hturns⟩

/-- A counting loop goes through all its turns if the body ends well in each of them and never
writes the name. -/
theorem exists_countedRun {header : LoopHeader} (hheader : header.CountsTo i a b)
    (ha : a.natAbs < 2 ^ 53) (hb : b.natAbs < 2 ^ 53) (hi : m.store.contains i = true)
    (hfree : i ∉ body.written)
    (hsucceeds : ∀ (k : Nat) m₁, a + k ≤ b → body.Counts i a m k m₁ →
      ∃ m₂, body.Ends (m₁.update i (.number (.ofInt (a + k)))) (.ok () m₂)) :
    ∃ m', CountedRun header body i a b m m' := by
  obtain ⟨m₁, starts, hcounts, hlength, hstarts, hturns⟩ :=
    exists_turns_of_counts hheader ha hb hi hfree hsucceeds (Nat.zero_add _) .zero
  have hfirst : a + (0 : Nat) = a := Int.add_zero a
  have hfinal : a + ((b - a + 1).toNat : Int) = max a (b + 1) := by omega
  rw [Nat.zero_add] at hcounts hturns
  rw [hfirst, hfinal] at hturns
  refine ⟨_, ⟨_, starts, hheader.initializer m hi, hturns, hlength, fun k s hs => ?_⟩,
    ⟨m₁, hcounts, rfl⟩, Machine.get?_update (hcounts.contains hfree hi) _⟩
  obtain ⟨n, hn, heq⟩ := hstarts.exists_counts hs
  rw [Nat.zero_add] at hn heq
  refine ⟨?_, n, hn, heq⟩
  rw [heq]
  exact Machine.get?_update (hn.contains hfree hi) _

end Runs

namespace Stmt

variable {i : String} {a b : Int} {m : Machine} {hs us : List Token} {stop last start : Token}
  {owner : Owner} {body : Parsed Block us.length}

/-- The loop that is read from a counting header and a block ends well if the block does whenever it
is reached. It runs the block once for each integer from the first to the last one, and leaves the
name at the integer after these. -/
theorem ends_counting (ha : a.natAbs < 2 ^ 53) (hb : b.natAbs < 2 ^ 53)
    (hhs : List.Forall₂ Terminal.Fits (Terminal.counting i a b) hs)
    (hbody : Parse.block stop owner start us = .ok body) (hi : m.store.contains i = true)
    (hfree : i ∉ body.value.written)
    (hsucceeds : ∀ (k : Nat) m₁, a + k ≤ b → body.value.Counts i a m k m₁ →
      ∃ m₂, body.value.Ends (m₁.update i (.number (.ofInt (a + k)))) (.ok () m₂)) :
    ∃ q, ∃ header : LoopHeader, ∃ span m', Parse.statement stop last (hs ++ us) = .ok q ∧
      q.rest = body.rest ∧
      q.value = .loop header.initializer header.condition header.increment body.value span ∧
      header.unmarked = (LoopHeader.counting i a b).unmarked ∧
      q.value.Ends m (.ok () m') ∧ CountedRun header body.value i a b m m' := by
  obtain ⟨q, header, span, hq, hrest, hvalue, hunmarked⟩ :=
    Parse.exists_statement_counting (Nat.le_of_lt ha) (Nat.le_of_lt hb) hhs hbody
  have hheader := LoopHeader.countsTo_of_unmarked (Nat.le_of_lt hb) hunmarked
  obtain ⟨m', hrun⟩ := exists_countedRun hheader ha hb hi hfree hsucceeds
  obtain ⟨m₀, starts, hinitializer, hturns, -⟩ := hrun.turns
  refine ⟨q, header, span, m', hq, hrest, hvalue, hunmarked, ?_, hrun⟩
  rw [hvalue]
  exact ends_loop_iff.2 ⟨m₀, starts, hinitializer, hturns⟩

/-- A loop from a negative integer on, as its text is read. The body runs three times, and the name
ends above the last integer. -/
theorem ends_counting_from_negative :
    let hs : List Token := [⟨.keyword .alang, "ALANG", ⟨0, 5⟩, 1⟩, ⟨.keyword .sa, "SA", ⟨6, 8⟩, 1⟩,
      ⟨.symbol .leftParen, "(", ⟨9, 10⟩, 1⟩, ⟨.identifier, "i", ⟨10, 11⟩, 1⟩,
      ⟨.symbol .equal, "=", ⟨12, 13⟩, 1⟩, ⟨.symbol .minus, "-", ⟨14, 15⟩, 1⟩,
      ⟨.number, "1", ⟨15, 16⟩, 1⟩, ⟨.symbol .comma, ",", ⟨16, 17⟩, 1⟩,
      ⟨.identifier, "i", ⟨18, 19⟩, 1⟩, ⟨.symbol .lessEqual, "<=", ⟨20, 22⟩, 1⟩,
      ⟨.number, "1", ⟨23, 24⟩, 1⟩, ⟨.symbol .comma, ",", ⟨24, 25⟩, 1⟩,
      ⟨.identifier, "i", ⟨26, 27⟩, 1⟩, ⟨.symbol .increment, "++", ⟨27, 29⟩, 1⟩,
      ⟨.symbol .rightParen, ")", ⟨29, 30⟩, 1⟩]
    let us : List Token := [⟨.keyword .pundok, "PUNDOK", ⟨31, 37⟩, 1⟩,
      ⟨.symbol .leftBrace, "\x7b", ⟨38, 39⟩, 1⟩, ⟨.identifier, "x", ⟨40, 41⟩, 1⟩,
      ⟨.symbol .equal, "=", ⟨42, 43⟩, 1⟩, ⟨.identifier, "i", ⟨44, 45⟩, 1⟩,
      ⟨.symbol .rightBrace, "\x7d", ⟨46, 47⟩, 1⟩]
    let stop : Token := ⟨.sourceEnd, "", ⟨47, 47⟩, 1⟩
    let copy : Assignment := ⟨["x"], .name "i" ⟨⟨44, 45⟩, 1⟩, ⟨⟨40, 45⟩, 1⟩⟩
    let m : Machine := ⟨⟨[("x", .text ""), ("i", .text "")], by decide⟩, .ofInput []⟩
    Token.ofSource "ALANG SA (i = -1, i <= 1, i++) PUNDOK \x7b x = i \x7d" =
        .ok (hs ++ us ++ [stop]) ∧
      ∃ q, ∃ header : LoopHeader, ∃ m₀ m' starts,
        Parse.statement stop stop (hs ++ us) = .ok q ∧ q.value.Ends m (.ok () m') ∧
        Turns header.condition header.increment (.mk [.assignment copy] ⟨31, 47⟩) m₀ starts m' ∧
        starts.length = 3 ∧ m'.store.get? "i" = some (.number (.ofInt 2)) := by
  intro hs us stop copy m
  have hsource : Token.ofSource "ALANG SA (i = -1, i <= 1, i++) PUNDOK \x7b x = i \x7d" =
      .ok (hs ++ us ++ [stop]) := by decide +kernel
  have hone : ∀ span line, (Terminal.literal (.number (.ofNat 1))).Fits
      ⟨.number, "1", span, line⟩ := by
    intro span line
    have hread : Number.ofText? "1".toList = some (.ofNat 1) := by decide +kernel
    exact ⟨rfl, hread⟩
  have hhs : List.Forall₂ Terminal.Fits (Terminal.counting "i" (-1) 1) hs := by
    refine .cons rfl (.cons rfl (.cons rfl (.cons ⟨rfl, rfl⟩ (.cons rfl (.cons rfl ?_)))))
    refine .cons (hone _ _) (.cons rfl (.cons ⟨rfl, rfl⟩ (.cons rfl (.cons (hone _ _) ?_))))
    exact .cons rfl (.cons ⟨rfl, rfl⟩ (.cons rfl (.cons rfl .nil)))
  let body : Parsed Block us.length :=
    ⟨.mk [.assignment copy] ⟨31, 47⟩, ⟨.symbol .rightBrace, "\x7d", ⟨46, 47⟩, 1⟩, [], by decide⟩
  have hbody : Parse.block stop .alangSa stop us = .ok body := by cbv
  have hfree : "i" ∉ body.value.written := by decide
  have hi : m.store.contains "i" = true := by decide
  -- The body copies the name, so it ends well wherever both names are declared, and they stay so.
  have hcopies : ∀ (n : Machine) v, n.store.contains "i" = true → n.store.contains "x" = true →
      body.value.Ends (n.update "i" v) (.ok () ((n.update "i" v).update "x" v)) := by
    intro n v hi hx
    have hx' : (n.update "i" v).store.contains "x" = true := (n.contains_update "i" "x" v).trans hx
    have hcopy := copy.exec_of_eval rfl (Expr.eval_name (Machine.get?_update hi v) _) hx'
    exact ⟨0, bind_apply_of_ok hcopy, rfl⟩
  have hx : ∀ k n, body.value.Counts "i" (-1) m k n → n.store.contains "x" = true := by
    intro k n hcounts
    induction hcounts with
    | zero => decide
    | @succ k m₁ m₂ h hrun ih =>
      cases hrun.unique (hcopies m₁ _ (h.contains hfree hi) ih)
      rw [Machine.contains_update, Machine.contains_update]
      exact ih
  obtain ⟨q, header, span, m', hq, -, -, -, hends, hrun⟩ :=
    ends_counting (by decide) (by decide) hhs hbody hi hfree fun k n _ hcounts =>
      ⟨_, hcopies n _ (hcounts.contains hfree hi) (hx k n hcounts)⟩
  obtain ⟨m₀, starts, -, hturns, hlength, -⟩ := hrun.turns
  exact ⟨hsource, q, header, m₀, m', starts, hq, hends, hturns, hlength, hrun.final⟩

end Stmt

end BisayaPlus
