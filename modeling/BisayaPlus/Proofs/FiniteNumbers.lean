import BisayaPlus.Proofs.GrammarSoundness
import BisayaPlus.Proofs.Steps
import BisayaPlus.Proofs.WellFormed

/-!
All numbers of a session are finite. A number comes into the store from a literal, from the zero
value of a type, from arithmetic, from a text that is read as a number, or from a piece of input,
and each of these ways is closed to the infinite ones.
-/

namespace BisayaPlus

namespace Value

theorem isFinite_of_finiteNumeral? {cs : List Char} {n : Number} (h : finiteNumeral? cs = some n) :
    n.isFinite = true :=
  (Option.filter_eq_some_iff.1 h).2

/-- What is read of a finite value as a number is finite. -/
theorem Finite.toNumber {v : Value} {n : Number} (hv : v.Finite) (h : v.toNumber = .ok n) :
    n.isFinite = true := by
  unfold Value.toNumber at h
  dsimp only at h
  split at h
  · rename_i number? m hm
    cases h
    cases v with
    | number n =>
      cases hm
      exact hv
    | text s => exact isFinite_of_finiteNumeral? hm
    | character c =>
      dsimp only at hm
      split at hm
      · rename_i hdigit
        obtain rfl := Option.some.inj hm
        exact Number.isFinite_ofNat (Number.digitValue_lt hdigit)
      · cases hm
    | boolean b => cases hm
  · cases h

/-- A piece of input becomes a finite number, or it stays a text. -/
theorem finite_ofPiece (piece : List Char) : (Value.ofPiece piece).Finite := by
  unfold Value.ofPiece
  split
  · rename_i n h
    obtain ⟨_, -, hn⟩ := Option.bind_eq_some_iff.1 h
    exact isFinite_of_finiteNumeral? hn
  · trivial

end Value

theorem DataType.finite_zeroValue (type : DataType) : type.zeroValue.Finite := by
  cases type with
  | numero | tipik => rfl
  | letra | tinuod => trivial

theorem DataType.finite_of_initial {type : DataType} {name : String} {v w : Value}
    (hv : v.Finite) (h : type.initial name v = .ok w) : w.Finite := by
  unfold DataType.initial at h
  dsimp only at h
  split at h
  · split at h <;> cases h
    exact hv
  · cases h
    exact hv
  · cases h
    trivial
  · cases h
    trivial
  · split at h <;> cases h
    trivial
  · cases h

/-- A unary operator makes a finite value of a finite one. -/
theorem UnaryOp.finite_of_apply {op : UnaryOp} {v w : Value} (hv : v.Finite)
    (h : op.apply v = .ok w) : w.Finite := by
  unfold UnaryOp.apply at h
  cases op with
  | plus =>
    obtain ⟨n, hn, h⟩ := Except.bind_eq_ok_iff.1 h
    cases h
    exact hv.toNumber (Except.mapError_eq_ok_iff.1 hn)
  | negate =>
    obtain ⟨n, hn, h⟩ := Except.bind_eq_ok_iff.1 h
    cases h
    exact (Number.isFinite_neg n).trans (hv.toNumber (Except.mapError_eq_ok_iff.1 hn))
  | not =>
    obtain ⟨b, -, h⟩ := Except.bind_eq_ok_iff.1 h
    cases h
    trivial

namespace BinaryOp

/-- The result of arithmetic is checked, so that a number that is not finite never leaves it. -/
theorem finite_of_checked {op : BinaryOp} {n : Number} {v : Value} (h : op.checked n = .ok v) :
    v.Finite := by
  unfold checked at h
  split at h
  · cases h
    assumption
  · cases h

theorem finite_of_arithmetic {op : BinaryOp} {f : Number → Number → Number} {v w r : Value}
    (h : op.arithmetic f v w = .ok r) : r.Finite := by
  obtain ⟨x, -, h⟩ := Except.bind_eq_ok_iff.1 h
  obtain ⟨y, -, h⟩ := Except.bind_eq_ok_iff.1 h
  exact finite_of_checked h

theorem finite_of_division {op : BinaryOp} {f : Number → Number → Number} {v w r : Value}
    (h : op.division f v w = .ok r) : r.Finite := by
  obtain ⟨x, -, h⟩ := Except.bind_eq_ok_iff.1 h
  obtain ⟨y, -, h⟩ := Except.bind_eq_ok_iff.1 h
  split at h
  · cases h
  · exact finite_of_checked h

theorem finite_of_comparison {op : BinaryOp} {holds : Ordering → Bool} {v w r : Value}
    (h : op.comparison holds v w = .ok r) : r.Finite := by
  obtain ⟨order?, -, h⟩ := Except.bind_eq_ok_iff.1 h
  cases h
  trivial

theorem finite_of_connective {op : BinaryOp} {f : Bool → Bool → Bool} {v w r : Value}
    (h : op.connective f v w = .ok r) : r.Finite := by
  obtain ⟨a, -, h⟩ := Except.bind_eq_ok_iff.1 h
  obtain ⟨b, -, h⟩ := Except.bind_eq_ok_iff.1 h
  cases h
  trivial

/-- A binary operator has no infinite result, whatever its operands are. -/
theorem finite_of_apply {op : BinaryOp} {v w r : Value} (h : op.apply v w = .ok r) :
    r.Finite := by
  cases op with
  | add | subtract | multiply => exact finite_of_arithmetic h
  | divide | modulo => exact finite_of_division h
  | equal | notEqual =>
    cases h
    trivial
  | less | lessEqual | greater | greaterEqual => exact finite_of_comparison h
  | and | or => exact finite_of_connective h

end BinaryOp

namespace Store

def Finite (s : Store) : Prop :=
  ∀ x v, s.get? x = some v → v.Finite

theorem finite_empty : Finite empty := by
  intro x v h
  cases h

theorem Finite.get {s : Store} {x : String} {v : Value} (hs : s.Finite) (h : s.get x = .ok v) :
    v.Finite := by
  unfold Store.get at h
  split at h
  · cases h
    exact hs x v ‹_›
  · cases h

theorem Finite.declare {s t : Store} {x : String} {v : Value} (hs : s.Finite) (hv : v.Finite)
    (h : s.declare x v = .ok t) : t.Finite := by
  intro y w hw
  rw [get?_of_declare h] at hw
  split at hw
  · cases hw
    exact hv
  · exact hs y w hw

theorem Finite.assign {s t : Store} {x : String} {v : Value} (hs : s.Finite) (hv : v.Finite)
    (h : s.assign x v = .ok t) : t.Finite := by
  unfold Store.assign at h
  split at h
  · cases h
    intro y w hw
    rw [get?_update] at hw
    split at hw
    · obtain ⟨_, -, rfl⟩ := Option.map_eq_some_iff.1 hw
      exact hv
    · exact hs y w hw
  · cases h

end Store

/-- Under a store of finite numbers, an expression of finite numbers has no infinite value. -/
theorem Expr.Finite.eval {e : Expr} {s : Store} {v : Value} (he : e.Finite) (hs : s.Finite)
    (h : e.eval s = .ok v) : v.Finite := by
  induction e generalizing v with
  | literal w m =>
    cases h
    exact he
  | name x m => exact hs.get (Except.mapError_eq_ok_iff.1 h)
  | unary op e m ih =>
    obtain ⟨w, hw, h⟩ := Except.bind_eq_ok_iff.1 h
    exact UnaryOp.finite_of_apply (ih he hw) (Except.mapError_eq_ok_iff.1 h)
  | binary op l r m ihl ihr =>
    obtain ⟨x, -, h⟩ := Except.bind_eq_ok_iff.1 h
    obtain ⟨y, -, h⟩ := Except.bind_eq_ok_iff.1 h
    exact BinaryOp.finite_of_apply (Except.mapError_eq_ok_iff.1 h)

namespace Action

/-- An action leaves all numbers in the store finite, even if it fails, and what it returns has a
property. -/
def Keeps {α : Type} (act : Action α) (p : α → Prop) : Prop :=
  ∀ m, m.store.Finite → match act m with
    | .ok a m' => m'.store.Finite ∧ p a
    | .error _ m' => m'.store.Finite

variable {α β : Type} {p : α → Prop} {q : β → Prop}

theorem keeps_pure {a : α} (h : p a) : Keeps (pure a) p := by
  intro m hm
  exact ⟨hm, h⟩

/-- Actions in sequence keep the store finite if each of them does. -/
theorem Keeps.bind {x : Action α} {f : α → Action β} (hx : Keeps x p)
    (hf : ∀ a, p a → Keeps (f a) q) : Keeps (x >>= f) q := by
  intro m hm
  have hfirst := hx m hm
  cases hr : x m with
  | ok a m' =>
    rw [hr] at hfirst
    rw [bind_apply_of_ok hr]
    exact hf a hfirst.2 m' hfirst.1
  | error i m' =>
    rw [hr] at hfirst
    rw [bind_apply_of_error hr]
    exact hfirst

theorem keeps_fail (fault : Fault) (mark : Mark) : Keeps (fail fault mark) p := by
  intro m hm
  exact hm

theorem keeps_get : Keeps get fun m => m.store.Finite := by
  intro m hm
  exact ⟨hm, hm⟩

theorem keeps_set {m : Machine} (h : m.store.Finite) : Keeps (set m) fun _ => True := by
  intro _ _
  exact ⟨h, trivial⟩

theorem keeps_ofStore {f : Store → Except Diagnostic α}
    (h : ∀ s a, s.Finite → f s = .ok a → p a) : Keeps (ofStore f) p := by
  intro m hm
  unfold ofStore
  cases hr : f m.store with
  | ok a => exact ⟨hm, h m.store a hm hr⟩
  | error d => exact hm

theorem keeps_onStore {f : Store → Except NameFault Store} {mark : Mark}
    (h : ∀ s t, s.Finite → f s = .ok t → t.Finite) : Keeps (onStore f mark) fun _ => True := by
  intro m hm
  unfold onStore
  cases hr : f m.store with
  | ok t => exact ⟨h m.store t hm hr, trivial⟩
  | error d => exact hm

theorem keeps_write (line : String) : Keeps (write line) fun _ => True :=
  keeps_get.bind fun m hm => (keeps_set (by exact hm)).bind fun _ _ => keeps_pure trivial

/-- Output leaves the store alone, whatever the sink answers. -/
theorem keeps_output (values : List Expr) (span : Span) :
    Keeps (output values span) fun _ => True := by
  unfold output
  refine (keeps_ofStore (p := fun _ => True) fun _ _ _ _ => trivial).bind fun vs _ => ?_
  refine (keeps_write _).bind fun answer _ => ?_
  split
  · exact keeps_pure trivial
  · exact keeps_fail _ _

theorem keeps_readLine (targets : List String) (mark : Mark) :
    Keeps (readLine targets mark) fun _ => True := by
  unfold readLine
  refine keeps_get.bind fun m hm => (keeps_set (by exact hm)).bind fun _ _ => ?_
  split
  · exact keeps_fail _ _
  · split
    · exact (keeps_fail (p := fun _ => True) _ _).bind fun _ _ => keeps_pure trivial
    · exact keeps_pure trivial

theorem keeps_readPieces (targets : List String) (mark : Mark) :
    Keeps (readPieces targets mark) fun _ => True := by
  unfold readPieces
  refine keeps_get.bind fun m _ => ?_
  split
  · exact keeps_fail _ _
  · refine (keeps_readLine targets mark).bind fun line _ => ?_
    dsimp only
    split
    · exact (keeps_fail (p := fun _ => True) _ _).bind fun _ _ => keeps_pure trivial
    · exact keeps_pure trivial

end Action

open BisayaPlus.Action

/-- A declarator gives its name a finite value or fails. -/
theorem Declarator.WellFormed.keeps {d : Declarator} (hd : d.WellFormed) (type : DataType) :
    Keeps (d.exec type) fun _ => True := by
  unfold Declarator.exec
  refine (keeps_ofStore (p := Value.Finite) ?_).bind fun v hv =>
    keeps_onStore fun _ _ hs h => hs.declare hv h
  intro s v _ h
  split at h
  · rename_i w hw
    exact DataType.finite_of_initial (hd w hw) (Except.mapError_eq_ok_iff.1 h)
  · cases h
    exact type.finite_zeroValue

def Task.Finite : Task → Prop
  | .statement s => s.WellFormed
  | .declare _ d => d.WellFormed
  | .assign _ v _ => v.Finite
  | .branches bs otherwise => Branch.AllWellFormed bs ∧ Block.OptionalWellFormed otherwise
  | .turns condition increment body =>
    condition.Finite ∧ increment.WellFormed ∧ body.WellFormed

theorem Stmt.forall_finite_of_allWellFormed {ss : List Stmt} (h : Stmt.AllWellFormed ss) :
    ∀ t ∈ ss.map Task.statement, t.Finite := by
  induction ss with
  | nil => simp
  | cons s ss ih =>
    exact List.forall_mem_cons.2 ⟨h.1, ih h.2⟩

theorem Block.WellFormed.finite_tasks {b : Block} (h : b.WellFormed) :
    ∀ t ∈ b.tasks, t.Finite := by
  cases b with
  | mk statements span =>
    exact Stmt.forall_finite_of_allWellFormed h

/-- The step of a statement keeps the store finite and leads to tasks with finite numbers. -/
theorem Stmt.WellFormed.keeps {s : Stmt} (h : s.WellFormed) :
    Keeps (Task.step (.statement s)) fun new => ∀ t ∈ new, t.Finite := by
  cases s with
  | declaration type ds span =>
    exact keeps_pure (List.forall_mem_map.2 h.2)
  | assignment a =>
    refine (keeps_ofStore (p := Value.Finite) fun s v hs hv => h.2.eval hs hv).bind fun v hv => ?_
    exact keeps_pure (List.forall_mem_map.2 fun _ _ => hv)
  | output values span =>
    exact (keeps_output values span).bind fun _ _ => keeps_pure (by simp)
  | input targets mark =>
    refine (keeps_readPieces targets mark).bind fun pieces _ => ?_
    exact keeps_pure (List.forall_mem_map.2 fun _ _ => Value.finite_ofPiece _)
  | conditional first others otherwise span =>
    refine keeps_pure (List.forall_mem_singleton.2 ⟨?_, h.2.2⟩)
    exact ⟨h.1, h.2.1⟩
  | loop initializer condition increment body span =>
    obtain ⟨-, hi, hc, ha, hb⟩ := h
    exact keeps_pure (List.forall_mem_cons.2 ⟨hi, List.forall_mem_singleton.2 ⟨hc, ha, hb⟩⟩)

/-- A step of a task of finite numbers keeps the store finite, and so do the tasks after it. -/
theorem Task.Finite.keeps {t : Task} (h : t.Finite) :
    Keeps t.step fun new => ∀ u ∈ new, u.Finite := by
  cases t with
  | statement s => exact Stmt.WellFormed.keeps h
  | declare type d =>
    exact (Declarator.WellFormed.keeps h type).bind fun _ _ => keeps_pure (by simp)
  | assign x v mark =>
    have hassign : Keeps (onStore (·.assign x v) mark) fun _ => True :=
      keeps_onStore fun _ _ hs ht => hs.assign h ht
    exact hassign.bind fun _ _ => keeps_pure (by simp)
  | branches bs otherwise =>
    obtain ⟨hbs, hotherwise⟩ := h
    cases bs with
    | nil =>
      cases otherwise with
      | none => exact keeps_pure (by simp)
      | some b =>
        exact keeps_pure hotherwise.finite_tasks
    | cons b bs =>
      refine (keeps_ofStore (p := fun _ => True) fun _ _ _ _ => trivial).bind fun holds _ => ?_
      refine keeps_pure ?_
      cases holds with
      | false => exact List.forall_mem_singleton.2 ⟨hbs.2, hotherwise⟩
      | true =>
        cases b with
        | mk condition body =>
          have hb := hbs.1
          exact hb.2.finite_tasks
  | turns condition increment body =>
    obtain ⟨hc, ha, hb⟩ := h
    refine (keeps_ofStore (p := fun _ => True) fun _ _ _ _ => trivial).bind fun holds _ => ?_
    refine keeps_pure ?_
    cases holds with
    | false => simp
    | true =>
      refine List.forall_mem_append.2 ⟨hb.finite_tasks, List.forall_mem_cons.2 ⟨?_, ?_⟩⟩
      · show Stmt.WellFormed _
        exact ha
      · exact List.forall_mem_singleton.2 ⟨hc, ha, hb⟩

def Point.Finite (p : Point) : Prop :=
  p.1.store.Finite ∧ ∀ t ∈ p.2, t.Finite

/-- Each step of a run keeps all numbers finite. -/
theorem Moves.finite {p q : Point} (h : Moves p q) (hp : Point.Finite p) : Point.Finite q := by
  cases h with
  | @step t ts new m m' hstep =>
    obtain ⟨ht, hts⟩ := List.forall_mem_cons.1 hp.2
    have hkeeps := ht.keeps m hp.1
    rw [hstep] at hkeeps
    exact ⟨hkeeps.1, List.forall_mem_append.2 ⟨hkeeps.2, hts⟩⟩
  | @fault t ts m m' i hstep =>
    obtain ⟨ht, -⟩ := List.forall_mem_cons.1 hp.2
    have hkeeps := ht.keeps m hp.1
    rw [hstep] at hkeeps
    exact ⟨hkeeps, by simp⟩

/-- A program that is read from a source text is well formed. -/
theorem Program.wellFormed_of_ofSource {source : String} {p : Program}
    (h : Program.ofSource source = .ok p) : p.WellFormed := by
  obtain ⟨tokens, -, h⟩ := Except.bind_eq_ok_iff.1 h
  obtain ⟨_, _, _, _, _, -, -, -, -, hss⟩ := ofTokens_eq_ok_iff.1 h
  exact (Grammar.statementsAt_of_statements hss).wellFormed

/-- At each point of a session all numbers are finite. -/
theorem Session.finite {p : Point} (h : Session p) : Point.Finite p := by
  induction h with
  | start console => exact ⟨Store.finite_empty, by simp⟩
  | source _ hp ih =>
    exact ⟨ih.1, Stmt.forall_finite_of_allWellFormed (Program.wellFormed_of_ofSource hp)⟩
  | moves _ hpq ih => exact hpq.finite ih
  | console _ _ ih => exact ih

/-- At every point of a session, the numbers in the store are finite, and so are those that the
expressions of a program have as their values there. -/
theorem Session.isFinite_of_number {m : Machine} {tasks : List Task} (h : Session (m, tasks)) :
    (∀ x n, m.store.get? x = some (.number n) → n.isFinite = true) ∧
      ∀ source p e n, Program.ofSource source = .ok p → e ∈ p.exprs →
        e.eval m.store = .ok (.number n) → n.isFinite = true := by
  have hstore : m.store.Finite := h.finite.1
  constructor
  · intro x n hx
    exact hstore x (.number n) hx
  · intro source p e n hp he hn
    have hfinite : e.Finite :=
      Stmt.finite_of_mem_exprsAll (Program.wellFormed_of_ofSource hp) e he
    exact hfinite.eval hstore hn

/-- Where a program that has divided one by three is done, a name has a value, and all numbers are
finite. -/
theorem Session.isFinite_of_quotient :
    ∃ m, Session (m, []) ∧ (m.store.get? "x").isSome = true ∧
      (∀ x n, m.store.get? x = some (.number n) → n.isFinite = true) ∧
      ∀ source p e n, Program.ofSource source = .ok p → e ∈ p.exprs →
        e.eval m.store = .ok (.number n) → n.isFinite = true := by
  let source := "SUGOD MUGNA TIPIK x x = 1 / 3 KATAPUSAN"
  let console := Console.ofInput []
  have hvalue : (do
      Action.runSource 0 source
      return ((← get).store.get? "x").isSome : Action Bool).run' (.start console) =
      some true := by decide +kernel
  have hsession := (Session.start console).endsAt_runSource 0 source
  delta EStateM.run' EStateM.run at hvalue
  cases hr : Action.runSource 0 source (.start console) with
  | ok _ m =>
    rw [bind_apply_of_ok hr] at hvalue
    rw [hr] at hsession
    exact ⟨m, hsession, Option.some.inj hvalue, Session.isFinite_of_number hsession⟩
  | error i m =>
    rw [bind_apply_of_error hr] at hvalue
    cases hvalue

end BisayaPlus
