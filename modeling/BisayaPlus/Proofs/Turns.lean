import BisayaPlus.Proofs.Budget

/-!
The turns of a loop. A loop that ends well took a number of turns, each of which began where its
test held, ran the body and then the increment, and it ended where the test failed. The machines on
which the body began are determined by the machine on which the loop began.
-/

namespace BisayaPlus

open BisayaPlus.Action

def Block.Ends (b : Block) (m : Machine) (r : EStateM.Result Interrupt Machine Unit) : Prop :=
  ∃ budget, b.exec budget m = r ∧ hasEnded r = true

/-- The turns that a loop takes from a test on: the machines on which the body began to run, and
the machine on which the test failed. -/
inductive Turns (condition : Expr) (increment : Assignment) (body : Block) :
    Machine → List Machine → Machine → Prop
  | done {m : Machine} (h : condition.test m.store = .ok false) :
      Turns condition increment body m [] m
  | turn {m m₁ m₂ m' : Machine} {starts : List Machine} (h : condition.test m.store = .ok true)
      (hbody : body.Ends m (.ok () m₁)) (hincrement : increment.exec m₁ = .ok () m₂)
      (hnext : Turns condition increment body m₂ starts m') :
      Turns condition increment body m (m :: starts) m'

section Ends

variable {m : Machine} {r r' : EStateM.Result Interrupt Machine Unit}

/-- A statement that ends does so with all budgets from some bound on. -/
theorem Stmt.Ends.exec_eq {s : Stmt} (h : s.Ends m r) :
    ∃ bound, ∀ budget, bound ≤ budget → s.exec budget m = r := by
  obtain ⟨bound, rfl, hend⟩ := h
  exact ⟨bound, fun budget hle => Stmt.extends_exec hle s m hend⟩

theorem Block.Ends.exec_eq {b : Block} (h : b.Ends m r) :
    ∃ bound, ∀ budget, bound ≤ budget → b.exec budget m = r := by
  obtain ⟨bound, rfl, hend⟩ := h
  exact ⟨bound, fun budget hle => Block.extends_exec hle b m hend⟩

theorem Block.Ends.unique {b : Block} (h : b.Ends m r) (h' : b.Ends m r') : r = r' := by
  obtain ⟨bound, hr⟩ := h.exec_eq
  obtain ⟨bound', hr'⟩ := h'.exec_eq
  rw [← hr _ (Nat.le_max_left bound bound'), ← hr' _ (Nat.le_max_right bound bound')]

end Ends

variable {condition : Expr} {increment : Assignment} {body : Block} {m m' : Machine}
  {starts : List Machine}

/-- The turns are determined by the machine on which they begin. -/
theorem Turns.unique (h : Turns condition increment body m starts m') {starts' : List Machine}
    {n : Machine} (h' : Turns condition increment body m starts' n) :
    starts = starts' ∧ m' = n := by
  induction h generalizing starts' with
  | done hfails =>
    cases h' with
    | done => exact ⟨rfl, rfl⟩
    | turn hholds => cases hfails.symm.trans hholds
  | turn hholds hbody hincrement _ ih =>
    cases h' with
    | done hfails => cases hholds.symm.trans hfails
    | turn _ hbody' hincrement' hnext' =>
      cases hbody.unique hbody'
      cases hincrement.symm.trans hincrement'
      obtain ⟨rfl, rfl⟩ := ih hnext'
      exact ⟨rfl, rfl⟩

/-- One test of a loop with what it leads to. -/
theorem repeatWhile_succ_apply {turn : Action Unit} {holds : Bool} (budget : Nat)
    (h : condition.test m.store = .ok holds) :
    repeatWhile (ofStore fun s => condition.test s) turn (budget + 1) m =
      (if holds then turn >>= fun _ =>
        repeatWhile (ofStore fun s => condition.test s) turn budget
      else pure ()) m :=
  bind_apply_of_ok (ofStore_of_ok (g := fun s => condition.test s) h)

/-- A budget that is large enough for each turn and for their number is enough for the loop. -/
theorem Turns.repeatWhile_eq (h : Turns condition increment body m starts m') :
    ∃ bound, ∀ budget count, bound ≤ budget → bound ≤ count →
      repeatWhile (ofStore fun s => condition.test s)
        (do body.exec budget; increment.exec) count m = .ok () m' := by
  induction h with
  | done hfails =>
    refine ⟨1, fun budget count _ hcount => ?_⟩
    obtain ⟨count, rfl⟩ : ∃ k, count = k + 1 := ⟨count - 1, by omega⟩
    rw [repeatWhile_succ_apply count hfails]
    rfl
  | @turn m m₁ m₂ m' starts hholds hbody hincrement hnext ih =>
    obtain ⟨bound, hexec⟩ := hbody.exec_eq
    obtain ⟨bound', hrest⟩ := ih
    refine ⟨max bound (bound' + 1), fun budget count hbudget hcount => ?_⟩
    obtain ⟨count, rfl⟩ : ∃ k, count = k + 1 := ⟨count - 1, by omega⟩
    have hturn : (body.exec budget >>= fun _ => increment.exec) m = .ok () m₂ :=
      (bind_apply_of_ok (hexec budget (by omega))).trans hincrement
    rw [repeatWhile_succ_apply count hholds, if_pos rfl, bind_apply_of_ok hturn]
    exact hrest budget count (by omega) (by omega)

/-- A loop that ended well took some turns, behind which its test failed to hold. -/
theorem exists_turns_of_repeatWhile {budget count : Nat}
    (h : repeatWhile (ofStore fun s => condition.test s)
      (do body.exec budget; increment.exec) count m = .ok () m') :
    ∃ starts, Turns condition increment body m starts m' := by
  induction count generalizing m with
  | zero => cases h
  | succ count ih =>
    obtain ⟨holds, m₀, hread, hrest⟩ := exists_of_bind_eq_ok h
    obtain ⟨htest, rfl⟩ := of_ofStore_eq_ok hread
    cases holds with
    | false =>
      cases hrest
      exact ⟨[], .done htest⟩
    | true =>
      obtain ⟨_, m₂, hturn, hrest⟩ := exists_of_bind_eq_ok hrest
      obtain ⟨_, m₁, hbody, hincrement⟩ := exists_of_bind_eq_ok hturn
      obtain ⟨starts, hnext⟩ := ih hrest
      exact ⟨m :: starts, .turn htest ⟨budget, hbody, rfl⟩ hincrement hnext⟩

/-- A loop ends well if its initializer does and turns follow up to where the test fails. -/
theorem Stmt.ends_loop_iff {initializer : Stmt} {span : Span} :
    (Stmt.loop initializer condition increment body span).Ends m (.ok () m') ↔
      ∃ m₁ starts, initializer.Ends m (.ok () m₁) ∧
        Turns condition increment body m₁ starts m' := by
  constructor
  · rintro ⟨budget, hexec, -⟩
    obtain ⟨_, m₁, hinitializer, hrest⟩ := exists_of_bind_eq_ok hexec
    obtain ⟨starts, hturns⟩ := exists_turns_of_repeatWhile hrest
    exact ⟨m₁, starts, ⟨budget, hinitializer, rfl⟩, hturns⟩
  · rintro ⟨m₁, starts, hinitializer, hturns⟩
    obtain ⟨bound, hfirst⟩ := hinitializer.exec_eq
    obtain ⟨bound', hrest⟩ := hturns.repeatWhile_eq
    have hle : bound ≤ max bound bound' := Nat.le_max_left _ _
    have hle' : bound' ≤ max bound bound' := Nat.le_max_right _ _
    refine ⟨max bound bound', ?_, rfl⟩
    exact (bind_apply_of_ok (hfirst _ hle)).trans (hrest _ _ hle' hle')

end BisayaPlus
