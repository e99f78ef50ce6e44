import BisayaPlus.Interpreter
import Mathlib.Logic.Relation

/-!
Runs in single steps. What is left of a run is a list of tasks. A step takes the first task and
puts the tasks that it leads to in its place, and a fault removes all tasks. The steps know no
budget, so a loop may go on without end. A run of a statement within a budget is made of such
steps, up to where it ends or the budget is spent.
-/

namespace BisayaPlus

/-- What is left to do of a statement. -/
inductive Task where
  | statement (statement : Stmt)
  | declare (type : DataType) (declarator : Declarator)
  | assign (name : String) (value : Value) (mark : Mark)
  | branches (branches : List Branch) (otherwise : Option Block)
  | turns (condition : Expr) (increment : Assignment) (body : Block)

def Block.tasks (b : Block) : List Task :=
  b.statements.map .statement

def Program.tasks (p : Program) : List Task :=
  p.statements.map .statement

namespace Action

/-- The pieces of the next line of input, of which there is one for each target. -/
def readPieces (targets : List String) (mark : Mark) : Action (List (List Char)) := do
  let m ← get
  match targets.find? (!m.store.contains ·) with
  | some name => fail (.naming (.undeclared name)) mark
  | none =>
    let pieces := Console.pieces (← readLine targets mark)
    if pieces.length < targets.length then
      fail (.runtime (.tooFewPieces targets pieces.length)) mark
    return pieces

/-- Input reads all its pieces before it assigns the first one. -/
theorem input_eq (targets : List String) (mark : Mark) :
    input targets mark =
      readPieces targets mark >>= fun pieces => assignPieces targets pieces mark := by
  unfold input readPieces
  rw [bind_assoc]
  refine congrArg (get >>= ·) (funext fun m => ?_)
  cases targets.find? (!m.store.contains ·) with
  | some name => rfl
  | none =>
    dsimp only
    rw [bind_assoc]
    refine congrArg (readLine targets mark >>= ·) (funext fun line => ?_)
    by_cases hfew : (Console.pieces line).length < targets.length
    · simp only [hfew, if_true]
      rfl
    · simp only [hfew, if_false]
      rfl

end Action

namespace Task

def step : Task → Action (List Task)
  | .statement (.declaration type ds _) => return ds.map (.declare type)
  | .statement (.assignment a) => do
    let v ← Action.ofStore a.value.eval
    return a.targets.map (.assign · v a.mark)
  | .statement (.output values span) => do
    Action.output values span
    return []
  | .statement (.input targets mark) => do
    let pieces ← Action.readPieces targets mark
    return (targets.zip pieces).map fun (x, piece) => .assign x (.ofPiece piece) mark
  | .statement (.conditional first others otherwise _) =>
    return [.branches (first :: others) otherwise]
  | .statement (.loop initializer condition increment body _) =>
    return [.statement initializer, .turns condition increment body]
  | .declare type d => do
    d.exec type
    return []
  | .assign x v mark => do
    Action.onStore (·.assign x v) mark
    return []
  | .branches [] none => return []
  | .branches [] (some b) => return b.tasks
  | .branches (b :: bs) otherwise => do
    let holds ← Action.ofStore fun s => b.condition.test s
    return if holds then b.body.tasks else [.branches bs otherwise]
  | .turns condition increment body => do
    let holds ← Action.ofStore fun s => condition.test s
    return if holds then
      body.tasks ++ [.statement (.assignment increment), .turns condition increment body]
    else
      []

end Task

abbrev Point := Machine × List Task

/-- One step of a run. -/
inductive Moves : Point → Point → Prop
  | step {t : Task} {ts new : List Task} {m m' : Machine} (h : t.step m = .ok new m') :
      Moves (m, t :: ts) (m', new ++ ts)
  | fault {t : Task} {ts : List Task} {m m' : Machine} {i : Interrupt}
      (h : t.step m = .error i m') : Moves (m, t :: ts) (m', [])

def Reaches : Point → Point → Prop :=
  Relation.ReflTransGen Moves

/-- How a run ended, seen from a point before it. If it ended early with a fault, no tasks are
left. -/
def EndsAt (p : Point) (rest : List Task) : EStateM.Result Interrupt Machine Unit → Prop
  | .ok _ m => Reaches p (m, rest)
  | .error (.fault _) m => Reaches p (m, [])
  | .error .budgetSpent m => ∃ left, Reaches p (m, left)

def Completes (act : Action Unit) (tasks : List Task) : Prop :=
  ∀ m rest, EndsAt (m, tasks ++ rest) rest (act m)

/-- A run that ends from one point on ends so from all points before it. -/
theorem EndsAt.of_reaches {p q : Point} {rest : List Task}
    {r : EStateM.Result Interrupt Machine Unit} (h : EndsAt q rest r) (hpq : Reaches p q) :
    EndsAt p rest r := by
  rcases r with ⟨_, m⟩ | ⟨d | _, m⟩
  · exact hpq.trans h
  · exact hpq.trans h
  · obtain ⟨left, hleft⟩ := h
    exact ⟨left, hpq.trans hleft⟩

namespace Action

variable {α β : Type} {x : Action α} {f : α → Action β} {m m' : Machine}

theorem bind_apply_of_ok {a : α} (h : x m = .ok a m') : (x >>= f) m = f a m' := by
  show EStateM.bind x f m = _
  rw [EStateM.bind, h]

theorem bind_apply_of_error {i : Interrupt} (h : x m = .error i m') :
    (x >>= f) m = .error i m' := by
  show EStateM.bind x f m = _
  rw [EStateM.bind, h]

/-- An action in two parts succeeds if both parts do. -/
theorem exists_of_bind_eq_ok {b : β} (h : (x >>= f) m = .ok b m') :
    ∃ a m₁, x m = .ok a m₁ ∧ f a m₁ = .ok b m' := by
  cases hx : x m with
  | ok a m₁ =>
    rw [bind_apply_of_ok hx] at h
    exact ⟨a, m₁, rfl, h⟩
  | error i m₁ =>
    rw [bind_apply_of_error hx] at h
    cases h

theorem ofStore_of_ok {g : Store → Except Diagnostic α} {a : α} (h : g m.store = .ok a) :
    ofStore g m = .ok a m := by
  rw [ofStore, h]

theorem ofStore_of_error {g : Store → Except Diagnostic α} {d : Diagnostic}
    (h : g m.store = .error d) : ofStore g m = .error (.fault d) m := by
  rw [ofStore, h]

theorem of_ofStore_eq_ok {g : Store → Except Diagnostic α} {a : α} (h : ofStore g m = .ok a m') :
    g m.store = .ok a ∧ m = m' := by
  cases hg : g m.store with
  | ok b =>
    rw [ofStore_of_ok hg] at h
    cases h
    exact ⟨rfl, rfl⟩
  | error d =>
    rw [ofStore_of_error hg] at h
    cases h

end Action

open BisayaPlus.Action

theorem completes_pure : Completes (pure ()) [] := by
  intro m rest
  exact .refl

theorem completes_budgetSpent (tasks : List Task) : Completes (throw .budgetSpent) tasks := by
  intro m rest
  exact ⟨_, .refl⟩

/-- Actions in sequence do their tasks one after another. -/
theorem Completes.append {first second : Action Unit} {ts us : List Task}
    (h₁ : Completes first ts) (h₂ : Completes second us) :
    Completes (first >>= fun _ => second) (ts ++ us) := by
  intro m rest
  have hfirst := h₁ m (us ++ rest)
  rw [List.append_assoc]
  cases hr : first m with
  | ok _ m' =>
    rw [bind_apply_of_ok hr]
    rw [hr] at hfirst
    exact (h₂ m' rest).of_reaches hfirst
  | error i m' =>
    rw [bind_apply_of_error hr]
    rw [hr] at hfirst
    cases i with
    | fault d => exact hfirst
    | budgetSpent => exact hfirst

/-- A task is done by its step and by what does the tasks that it leads to. -/
theorem completes_of_step {α : Type} {t : Task} {x : Action α} {next : α → Action Unit}
    {tasks : α → List Task} (hstep : t.step = x >>= fun a => pure (tasks a))
    (hnext : ∀ a, Completes (next a) (tasks a)) : Completes (x >>= next) [t] := by
  intro m rest
  cases hr : x m with
  | ok a m' =>
    have hmove : t.step m = .ok (tasks a) m' := by
      rw [hstep, bind_apply_of_ok hr]
      rfl
    rw [bind_apply_of_ok hr]
    exact (hnext a m' rest).of_reaches (.single (.step hmove))
  | error i m' =>
    have hmove : t.step m = .error i m' := by
      rw [hstep, bind_apply_of_error hr]
    rw [bind_apply_of_error hr]
    cases i with
    | fault d => exact .single (.fault hmove)
    | budgetSpent => exact ⟨[], .single (.fault hmove)⟩

theorem completes_of_step_nil {t : Task} {act : Action Unit}
    (hstep : t.step = act >>= fun _ => pure []) : Completes act [t] := by
  have h := completes_of_step hstep fun _ => completes_pure
  rwa [bind_pure_unit] at h

theorem completes_of_step_pure {t : Task} {act : Action Unit} {tasks : List Task}
    (hstep : t.step = pure tasks) (h : Completes act tasks) : Completes act [t] := by
  intro m rest
  have hmove : t.step m = .ok tasks m := by
    rw [hstep]
    rfl
  exact (h m rest).of_reaches (.single (.step hmove))

theorem completes_forM {α : Type} {act : α → Action Unit} {task : α → Task}
    (h : ∀ a, Completes (act a) [task a]) (as : List α) :
    Completes (as.forM act) (as.map task) := by
  induction as with
  | nil => exact completes_pure
  | cons a as ih =>
    rw [List.forM_eq_forM, List.forM_cons]
    exact (h a).append ih

theorem Assignment.completes (a : Assignment) : Completes a.exec [.statement (.assignment a)] :=
  completes_of_step rfl fun _ => completes_forM (fun _ => completes_of_step_nil rfl) a.targets

/-- A loop does its turns, with any number of them allowed. -/
theorem completes_repeatWhile {condition : Expr} {increment : Assignment} {body : Block}
    {act : Action Unit} (h : Completes act body.tasks) (budget : Nat) :
    Completes
      (repeatWhile (ofStore fun s => condition.test s) (do act; increment.exec) budget)
      [.turns condition increment body] := by
  -- A turn ends with the task of the loop again, which has one less of the budget to spend.
  induction budget with
  | zero => exact completes_budgetSpent _
  | succ budget ih =>
    refine completes_of_step rfl fun holds => ?_
    cases holds with
    | false => exact completes_pure
    | true =>
      have hturn := (h.append increment.completes).append ih
      rw [List.append_assoc] at hturn
      exact hturn

mutual

/-- Running a statement does what its steps do. -/
theorem Stmt.completes (budget : Nat) (s : Stmt) : Completes (s.exec budget) [.statement s] := by
  cases s with
  | declaration type ds span =>
    exact completes_of_step_pure rfl (completes_forM (fun _ => completes_of_step_nil rfl) ds)
  | assignment a =>
    exact a.completes
  | output values span =>
    exact completes_of_step_nil rfl
  | input targets mark =>
    rw [Stmt.exec, input_eq]
    exact completes_of_step rfl fun pieces =>
      completes_forM (fun _ => completes_of_step_nil rfl) (targets.zip pieces)
  | conditional first others otherwise span =>
    exact completes_of_step_pure rfl
      (Branch.completes budget first
        (Branch.completes_all budget others (Block.completes_optional budget otherwise)))
  | loop initializer condition increment body span =>
    exact completes_of_step_pure rfl
      ((Stmt.completes budget initializer).append
        (completes_repeatWhile (Block.completes budget body) budget))

theorem Branch.completes (budget : Nat) (b : Branch) {bs : List Branch} {otherwise : Option Block}
    {alternative : Action Unit} (h : Completes alternative [.branches bs otherwise]) :
    Completes (b.exec budget alternative) [.branches (b :: bs) otherwise] := by
  cases b with
  | mk condition body =>
    refine completes_of_step rfl fun holds => ?_
    cases holds with
    | false => exact h
    | true => exact Block.completes budget body

theorem Branch.completes_all (budget : Nat) (bs : List Branch) {otherwise : Option Block}
    {alternative : Action Unit} (h : Completes alternative [.branches [] otherwise]) :
    Completes (Branch.execAll budget bs alternative) [.branches bs otherwise] := by
  cases bs with
  | nil =>
    exact h
  | cons b bs =>
    exact Branch.completes budget b (Branch.completes_all budget bs h)

theorem Block.completes (budget : Nat) (b : Block) : Completes (b.exec budget) b.tasks := by
  cases b with
  | mk statements span =>
    exact Stmt.completes_all budget statements

theorem Block.completes_optional (budget : Nat) (b : Option Block) :
    Completes (Block.execOptional budget b) [.branches [] b] := by
  cases b with
  | none =>
    exact completes_of_step_pure rfl completes_pure
  | some b =>
    exact completes_of_step_pure rfl (Block.completes budget b)

theorem Stmt.completes_all (budget : Nat) (ss : List Stmt) :
    Completes (Stmt.execAll budget ss) (ss.map .statement) := by
  cases ss with
  | nil =>
    exact completes_pure
  | cons s ss =>
    exact (Stmt.completes budget s).append (Stmt.completes_all budget ss)

end

/-- The points that are reached by running source texts one after another, each to its end. In
between, the input and the output may change in any way. -/
inductive Session : Point → Prop
  | start (console : Console) : Session (.start console, [])
  | source {m : Machine} {source : String} {p : Program} (h : Session (m, []))
      (hp : Program.ofSource source = .ok p) : Session (m, p.tasks)
  | moves {p q : Point} (h : Session p) (hpq : Moves p q) : Session q
  | console {m : Machine} {ts : List Task} (h : Session (m, ts)) (console : Console) :
      Session ({ m with console }, ts)

/-- All points that are reached within a session belong to it. -/
theorem Session.reaches {p q : Point} (h : Session p) (hpq : Reaches p q) : Session q := by
  induction hpq with
  | refl => exact h
  | tail _ hmove ih => exact ih.moves hmove

/-- Where a source text leaves the machine of a session, the session goes on. -/
theorem Session.endsAt_runSource {m : Machine} (h : Session (m, [])) (budget : Nat)
    (source : String) :
    match Action.runSource budget source m with
    | .error .budgetSpent m' => ∃ left, Session (m', left)
    | .ok _ m' | .error (.fault _) m' => Session (m', []) := by
  unfold Action.runSource
  cases hp : Program.ofSource source with
  | error d => exact h
  | ok p =>
    have hends := Stmt.completes_all budget p.statements m []
    rw [List.append_nil] at hends
    have hrun : p.exec budget m = Stmt.execAll budget p.statements m := rfl
    dsimp only
    rw [hrun]
    cases hr : Stmt.execAll budget p.statements m with
    | ok _ m' =>
      rw [hr] at hends
      exact (h.source hp).reaches hends
    | error i m' =>
      rw [hr] at hends
      cases i with
      | fault d => exact (h.source hp).reaches hends
      | budgetSpent =>
        obtain ⟨left, hleft⟩ := hends
        exact ⟨left, (h.source hp).reaches hleft⟩

end BisayaPlus
