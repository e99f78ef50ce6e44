import BisayaPlus.Proofs.Steps

/-!
Conditionals with several branches. Such a conditional does what a nest of conditionals with one
branch each does. It tests the conditions in their order and on the machine as it found it, up to
the first that holds or fails, and runs the one block that was chosen by then, or none. From there
on nothing is left of the other branches.
-/

namespace BisayaPlus

/-- What takes the place of further branches in a conditional that has only one: a block with the
conditional of these branches, or the last alternative where there are none. -/
def Branch.remaining (span : Span) : List Branch → Option Block → Option Block
  | [], otherwise => otherwise
  | b :: bs, otherwise => some (.mk [.conditional b bs otherwise span] span)

/-- The further branches as conditionals of one branch each, one within the other. -/
def Branch.nested (span : Span) : List Branch → Option Block → Option Block
  | [], otherwise => otherwise
  | b :: bs, otherwise => some (.mk [.conditional b [] (nested span bs otherwise) span] span)

def Task.tested : Task → List Expr
  | .branches (b :: _) _ => [b.condition]
  | .turns condition _ _ => [condition]
  | _ => []

inductive Trail : Point → List Task → Point → Prop
  | refl (p : Point) : Trail p [] p
  | head {m : Machine} {t : Task} {ts us : List Task} {q r : Point} (h : Moves (m, t :: ts) q)
      (hr : Trail q us r) : Trail (m, t :: ts) (t :: us) r

/-- What a conditional chooses: a block or none, unless the test of a condition fails. -/
abbrev Choice := Except Diagnostic (Option Block)

namespace Choice

def exec (budget : Nat) : Choice → Action Unit
  | .ok block => Block.execOptional budget block
  | .error d => throw (.fault d)

def point (m : Machine) (rest : List Task) : Choice → Point
  | .ok none => (m, rest)
  | .ok (some b) => (m, b.tasks ++ rest)
  | .error _ => (m, [])

end Choice

/-- The branches whose conditions are tested, and the choice that is made by them: the block of the
first branch of which the condition holds, or the alternative if no condition holds. -/
inductive Branch.Chooses (bs : List Branch) (otherwise : Option Block) (s : Store) :
    List Branch → Choice → Prop
  | holds {before after : List Branch} {b : Branch} (heq : bs = before ++ b :: after)
      (hbefore : ∀ c ∈ before, c.condition.test s = .ok false)
      (hb : b.condition.test s = .ok true) :
      Chooses bs otherwise s (before ++ [b]) (.ok (some b.body))
  | fails {before after : List Branch} {b : Branch} {d : Diagnostic}
      (heq : bs = before ++ b :: after)
      (hbefore : ∀ c ∈ before, c.condition.test s = .ok false)
      (hb : b.condition.test s = .error d) :
      Chooses bs otherwise s (before ++ [b]) (.error d)
  | none (hall : ∀ c ∈ bs, c.condition.test s = .ok false) :
      Chooses bs otherwise s bs (.ok otherwise)

/-- A point has no more than one next point, so there is only one run. -/
theorem Moves.unique {p q q' : Point} (h : Moves p q) (h' : Moves p q') : q = q' := by
  cases h with
  | step hs =>
    cases h' with
    | step hs' =>
      cases hs.symm.trans hs'
      rfl
    | fault hs' => cases hs.symm.trans hs'
  | fault hs =>
    cases h' with
    | step hs' => cases hs.symm.trans hs'
    | fault hs' =>
      cases hs.symm.trans hs'
      rfl

namespace Branch

variable {bs : List Branch} {otherwise : Option Block} {b : Branch}

theorem Chooses.cons {s : Store} {tested : List Branch} {choice : Choice}
    (h : Chooses bs otherwise s tested choice) (hb : b.condition.test s = .ok false) :
    Chooses (b :: bs) otherwise s (b :: tested) choice := by
  cases h with
  | @holds before after c heq hbefore hc =>
    rw [← List.cons_append]
    exact .holds (congrArg (b :: ·) heq) (List.forall_mem_cons.2 ⟨hb, hbefore⟩) hc
  | @fails before after c d heq hbefore hc =>
    rw [← List.cons_append]
    exact .fails (congrArg (b :: ·) heq) (List.forall_mem_cons.2 ⟨hb, hbefore⟩) hc
  | none hall => exact .none (List.forall_mem_cons.2 ⟨hb, hall⟩)

/-- A branch tests its condition and runs its body, or what takes its place. -/
theorem exec_eq (b : Branch) (budget : Nat) (alternative : Action Unit) :
    b.exec budget alternative = Action.ofStore (fun s => b.condition.test s) >>= fun holds =>
      if holds then b.body.exec budget else alternative := by
  cases b with
  | mk condition body =>
    rw [Branch.exec]
    rfl

theorem exec_of_test {m : Machine} {holds : Bool} (h : b.condition.test m.store = .ok holds)
    (budget : Nat) (alternative : Action Unit) :
    b.exec budget alternative m = (if holds then b.body.exec budget else alternative) m := by
  rw [exec_eq]
  exact Action.bind_apply_of_ok (Action.ofStore_of_ok (g := fun s => b.condition.test s) h)

theorem exec_of_test_error {m : Machine} {d : Diagnostic}
    (h : b.condition.test m.store = .error d) (budget : Nat) (alternative : Action Unit) :
    b.exec budget alternative m = .error (.fault d) m := by
  rw [exec_eq]
  exact Action.bind_apply_of_error (Action.ofStore_of_error (g := fun s => b.condition.test s) h)

/-- A test with a truth value leads to the body or to the branches that are left. -/
theorem moves_of_test {m : Machine} {holds : Bool} (h : b.condition.test m.store = .ok holds)
    (bs : List Branch) (otherwise : Option Block) (rest : List Task) :
    Moves (m, .branches (b :: bs) otherwise :: rest)
      (m, (if holds then b.body.tasks else [.branches bs otherwise]) ++ rest) := by
  apply Moves.step
  exact Action.bind_apply_of_ok (Action.ofStore_of_ok (g := fun s => b.condition.test s) h)

/-- A test that fails ends the run. -/
theorem moves_of_test_error {m : Machine} {d : Diagnostic}
    (h : b.condition.test m.store = .error d) (bs : List Branch) (otherwise : Option Block)
    (rest : List Task) : Moves (m, .branches (b :: bs) otherwise :: rest) (m, []) := by
  apply Moves.fault
  exact Action.bind_apply_of_error (Action.ofStore_of_error (g := fun s => b.condition.test s) h)

theorem moves_nil (otherwise : Option Block) (m : Machine) (rest : List Task) :
    Moves (m, .branches [] otherwise :: rest) (Choice.point m rest (.ok otherwise)) := by
  cases otherwise with
  | none =>
    show Moves _ (m, [] ++ rest)
    exact .step rfl
  | some b =>
    show Moves _ (m, b.tasks ++ rest)
    exact .step rfl

/-- The branches make a choice on a machine: they do what was chosen, and all steps up to there are
their own. -/
structure Makes (bs : List Branch) (otherwise : Option Block) (m : Machine) (tested : List Branch)
    (choice : Choice) : Prop where
  chooses : Chooses bs otherwise m.store tested choice
  exec_eq : ∀ budget, execAll budget bs (Block.execOptional budget otherwise) m =
    choice.exec budget m
  trail : ∀ rest, ∃ trail, Trail (m, .branches bs otherwise :: rest) trail (choice.point m rest) ∧
    trail.flatMap Task.tested = tested.map condition ∧
    ∀ t ∈ trail, ∃ left, t = .branches left otherwise

theorem makes_nil (otherwise : Option Block) (m : Machine) :
    Makes [] otherwise m [] (.ok otherwise) where
  chooses := .none (List.forall_mem_nil _)
  exec_eq budget := rfl
  trail rest := by
    refine ⟨[.branches [] otherwise], .head (moves_nil otherwise m rest) (.refl _), rfl, ?_⟩
    exact List.forall_mem_singleton.2 ⟨[], rfl⟩

theorem makes_of_holds {m : Machine} (h : b.condition.test m.store = .ok true) (bs : List Branch)
    (otherwise : Option Block) : Makes (b :: bs) otherwise m [b] (.ok (some b.body)) where
  chooses := .holds (List.nil_append _).symm (List.forall_mem_nil _) h
  exec_eq budget := exec_of_test h budget _
  trail rest := by
    refine ⟨[.branches (b :: bs) otherwise], .head (moves_of_test h bs otherwise rest) (.refl _),
      rfl, ?_⟩
    exact List.forall_mem_singleton.2 ⟨_, rfl⟩

theorem makes_of_fails {m : Machine} {d : Diagnostic} (h : b.condition.test m.store = .error d)
    (bs : List Branch) (otherwise : Option Block) : Makes (b :: bs) otherwise m [b] (.error d) where
  chooses := .fails (List.nil_append _).symm (List.forall_mem_nil _) h
  exec_eq budget := exec_of_test_error h budget _
  trail rest := by
    refine ⟨[.branches (b :: bs) otherwise],
      .head (moves_of_test_error h bs otherwise rest) (.refl _), rfl, ?_⟩
    exact List.forall_mem_singleton.2 ⟨_, rfl⟩

/-- A branch whose condition does not hold leaves the choice to those behind it. -/
theorem Makes.cons {m : Machine} {tested : List Branch} {choice : Choice}
    (h : Makes bs otherwise m tested choice) (hb : b.condition.test m.store = .ok false) :
    Makes (b :: bs) otherwise m (b :: tested) choice where
  chooses := h.chooses.cons hb
  exec_eq budget := by
    rw [← h.exec_eq budget]
    exact exec_of_test hb budget _
  trail rest := by
    obtain ⟨trail, hrun, htested, hown⟩ := h.trail rest
    refine ⟨.branches (b :: bs) otherwise :: trail,
      .head (moves_of_test hb bs otherwise rest) hrun, ?_, ?_⟩
    · rw [List.flatMap_cons, htested]
      rfl
    · exact List.forall_mem_cons.2 ⟨⟨_, rfl⟩, hown⟩

/-- On each machine the branches make a choice. -/
theorem exists_makes (bs : List Branch) (otherwise : Option Block) (m : Machine) :
    ∃ tested choice, Makes bs otherwise m tested choice := by
  induction bs with
  | nil => exact ⟨_, _, makes_nil otherwise m⟩
  | cons b bs ih =>
    cases htest : b.condition.test m.store with
    | error d => exact ⟨_, _, makes_of_fails htest bs otherwise⟩
    | ok holds =>
      cases holds with
      | true => exact ⟨_, _, makes_of_holds htest bs otherwise⟩
      | false =>
        obtain ⟨tested, choice, h⟩ := ih
        exact ⟨_, _, h.cons htest⟩

end Branch

namespace Stmt

theorem exec_singleton (s : Stmt) (span : Span) (budget : Nat) :
    (Block.mk [s] span).exec budget = s.exec budget :=
  bind_pure_unit

/-- The further branches of a conditional may as well stand in a block of their own. -/
theorem execOptional_remaining (span : Span) (bs : List Branch) (otherwise : Option Block)
    (budget : Nat) :
    Block.execOptional budget (Branch.remaining span bs otherwise) =
      Branch.execAll budget bs (Block.execOptional budget otherwise) := by
  cases bs with
  | nil => rfl
  | cons b bs => exact exec_singleton _ span budget

/-- Nested conditionals do what their branches and the last alternative do. -/
theorem execOptional_nested (span : Span) (bs : List Branch) (otherwise : Option Block)
    (budget : Nat) :
    Block.execOptional budget (Branch.nested span bs otherwise) =
      Branch.execAll budget bs (Block.execOptional budget otherwise) := by
  induction bs with
  | nil => rfl
  | cons b bs ih =>
    have htwo : Block.execOptional budget (Branch.nested span (b :: bs) otherwise) =
        b.exec budget (Block.execOptional budget (Branch.nested span bs otherwise)) :=
      exec_singleton _ span budget
    rw [htwo, ih]
    rfl

/-- A conditional with further branches is a conditional with one branch and a conditional of the
further ones as its alternative, and so it is a nest of conditionals with one branch each. It runs
one block at most, and none if the test of a condition fails. The conditions are tested up to the
first that holds or fails, and until then there are no other steps. -/
theorem exec_cascade (first : Branch) (others : List Branch) (otherwise : Option Block)
    (span inner : Span) :
    let cascade := Stmt.conditional first others otherwise span
    (∀ budget, cascade.exec budget = (Stmt.conditional first []
      (Branch.remaining inner others otherwise) span).exec budget) ∧
    (∀ budget, cascade.exec budget = (Stmt.conditional first []
      (Branch.nested inner others otherwise) span).exec budget) ∧
    ∀ m, ∃ tested choice,
      Branch.Chooses (first :: others) otherwise m.store tested choice ∧
      (∀ budget, cascade.exec budget m = choice.exec budget m) ∧
      ∀ rest, ∃ trail,
        Trail (m, .statement cascade :: rest) (.statement cascade :: trail)
          (choice.point m rest) ∧
        trail.flatMap Task.tested = tested.map Branch.condition ∧
        ∀ t ∈ trail, ∃ left, t = .branches left otherwise := by
  intro cascade
  refine ⟨fun budget => ?_, fun budget => ?_, fun m => ?_⟩
  · have hremaining := execOptional_remaining inner others otherwise budget
    exact congrArg (first.exec budget) hremaining.symm
  · have hnested := execOptional_nested inner others otherwise budget
    exact congrArg (first.exec budget) hnested.symm
  · obtain ⟨tested, choice, h⟩ := Branch.exists_makes (first :: others) otherwise m
    refine ⟨tested, choice, h.chooses, h.exec_eq, fun rest => ?_⟩
    obtain ⟨trail, hrun, htested, hown⟩ := h.trail rest
    have hstart : Moves (m, .statement cascade :: rest)
        (m, [.branches (first :: others) otherwise] ++ rest) := .step rfl
    exact ⟨trail, .head hstart hrun, htested, hown⟩

end Stmt

end BisayaPlus
