import BisayaPlus.Proofs.Budget
import BisayaPlus.Proofs.WellFormed
import Mathlib.Data.List.Find

/-!
What a statement can see and change. It sees the console and the names that occur in it, so two
machines that agree on these stay in step, and it changes only the names that it declares or gives
a value to. Both hold from one end of a run to the other, also if the run fails in the middle.
-/

namespace BisayaPlus

def Expr.names : Expr → List String
  | .literal _ _ => []
  | .name x _ => [x]
  | .unary _ e _ => e.names
  | .binary _ l r _ => l.names ++ r.names

mutual

/-- The names that a statement declares, assigns or reads a value for. -/
def Stmt.written : Stmt → List String
  | .declaration _ ds _ => ds.map (·.name)
  | .assignment a => a.targets
  | .output .. => []
  | .input targets _ => targets
  | .conditional first others otherwise _ =>
    first.written ++ (Branch.writtenAll others ++ Block.writtenOptional otherwise)
  | .loop initializer _ increment body _ =>
    initializer.written ++ (increment.targets ++ body.written)

def Branch.written : Branch → List String
  | .mk _ body => body.written

def Branch.writtenAll : List Branch → List String
  | [] => []
  | b :: bs => b.written ++ Branch.writtenAll bs

def Block.written : Block → List String
  | .mk statements _ => Stmt.writtenAll statements

def Block.writtenOptional : Option Block → List String
  | none => []
  | some b => b.written

def Stmt.writtenAll : List Stmt → List String
  | [] => []
  | s :: ss => s.written ++ Stmt.writtenAll ss

end

def Stmt.names (s : Stmt) : List String :=
  s.written ++ s.exprs.flatMap Expr.names

/-- The machines have the same console, and each of the names has the same value on both or is
declared on neither. -/
structure Machine.Agree (names : List String) (m m' : Machine) : Prop where
  console : m.console = m'.console
  get? : ∀ x ∈ names, m.store.get? x = m'.store.get? x

namespace Action

variable {α β : Type} {names written : List String}

/-- The runs end alike, with the same value or the same interrupt, and leave machines that agree
on the names. -/
def AgreeAtEnd (names : List String) :
    EStateM.Result Interrupt Machine α → EStateM.Result Interrupt Machine α → Prop
  | .ok a m, .ok a' m' => a = a' ∧ m.Agree names m'
  | .error i m, .error i' m' => i = i' ∧ m.Agree names m'
  | _, _ => False

def machineAtEnd : EStateM.Result Interrupt Machine α → Machine
  | .ok _ m | .error _ m => m

/-- An action keeps machines in step that agree on some names, and changes only the written ones
of all names. -/
structure Within (names written : List String) (act : Action α) : Prop where
  agree : ∀ m m', m.Agree names m' → AgreeAtEnd names (act m) (act m')
  frame : ∀ m, ∀ x ∉ written, (machineAtEnd (act m)).store.get? x = m.store.get? x

theorem within_pure (a : α) : Within names written (pure a) :=
  ⟨fun _ _ h => ⟨rfl, h⟩, fun _ _ _ => rfl⟩

theorem within_throw (i : Interrupt) : Within names written (throw i : Action α) :=
  ⟨fun _ _ h => ⟨rfl, h⟩, fun _ _ _ => rfl⟩

/-- Actions in sequence stay within the names that each of them stays within. -/
theorem Within.bind {x : Action α} {f : α → Action β} (hx : Within names written x)
    (hf : ∀ a, Within names written (f a)) : Within names written (x >>= f) where
  agree m m' h := by
    have hfirst := hx.agree m m' h
    cases hr : x m with
    | ok a n =>
      cases hr' : x m' with
      | ok a' n' =>
        rw [hr, hr'] at hfirst
        obtain ⟨rfl, hn⟩ := hfirst
        rw [bind_apply_of_ok hr, bind_apply_of_ok hr']
        exact (hf a).agree n n' hn
      | error i' n' =>
        rw [hr, hr'] at hfirst
        exact hfirst.elim
    | error i n =>
      cases hr' : x m' with
      | ok a' n' =>
        rw [hr, hr'] at hfirst
        exact hfirst.elim
      | error i' n' =>
        rw [hr, hr'] at hfirst
        rw [bind_apply_of_error hr, bind_apply_of_error hr']
        exact hfirst
  frame m y hy := by
    have hfirst := hx.frame m y hy
    cases hr : x m with
    | ok a n =>
      rw [hr] at hfirst
      rw [bind_apply_of_ok hr]
      exact ((hf a).frame n y hy).trans hfirst
    | error i n =>
      rw [hr] at hfirst
      rw [bind_apply_of_error hr]
      exact hfirst

theorem within_forM {act : α → Action Unit} {as : List α}
    (h : ∀ a ∈ as, Within names written (act a)) : Within names written (as.forM act) := by
  induction as with
  | nil => exact within_pure ()
  | cons a as ih =>
    obtain ⟨ha, has⟩ := List.forall_mem_cons.1 h
    rw [List.forM_eq_forM, List.forM_cons]
    exact ha.bind fun _ => ih has

/-- What is computed from the names alone. -/
theorem within_ofStore {f : Store → Except Diagnostic α}
    (h : ∀ s s' : Store, (∀ x ∈ names, s.get? x = s'.get? x) → f s = f s') :
    Within names written (ofStore f) where
  agree m m' hm := by
    have hf := h m.store m'.store hm.get?
    unfold ofStore
    rw [hf]
    cases f m'.store with
    | ok a => exact ⟨rfl, hm⟩
    | error d => exact ⟨rfl, hm⟩
  frame m y _ := by
    unfold ofStore
    cases f m.store with
    | ok a => rfl
    | error d => rfl

/-- A change of the store that is the same on the names, and that leaves all others alone. -/
theorem within_onStore {f : Store → Except NameFault Store} {mark : Mark}
    (hagree : ∀ s s' : Store, (∀ x ∈ names, s.get? x = s'.get? x) →
      match f s, f s' with
      | .ok t, .ok t' => ∀ x ∈ names, t.get? x = t'.get? x
      | .error e, .error e' => e = e'
      | _, _ => False)
    (hframe : ∀ s t, f s = .ok t → ∀ x ∉ written, t.get? x = s.get? x) :
    Within names written (onStore f mark) where
  agree m m' hm := by
    have hf := hagree m.store m'.store hm.get?
    unfold onStore
    cases hr : f m.store with
    | ok t =>
      cases hr' : f m'.store with
      | ok t' =>
        rw [hr, hr'] at hf
        exact ⟨rfl, hm.console, hf⟩
      | error e' =>
        rw [hr, hr'] at hf
        exact hf.elim
    | error e =>
      cases hr' : f m'.store with
      | ok t' =>
        rw [hr, hr'] at hf
        exact hf.elim
      | error e' =>
        rw [hr, hr'] at hf
        obtain rfl : e = e' := hf
        exact ⟨rfl, hm⟩
  frame m y hy := by
    unfold onStore
    cases hr : f m.store with
    | ok t => exact hframe m.store t hr y hy
    | error e => rfl

/-- What an action looks at on the machine is the same on machines that agree. -/
theorem within_get {f : Machine → Action α}
    (h : ∀ m m' : Machine, m.Agree names m' → f m = f m') (hf : ∀ m, Within names written (f m)) :
    Within names written (get >>= f) where
  agree m m' hm := by
    have hsame := (hf m').agree m m' hm
    show AgreeAtEnd names (f m m) (f m' m')
    rw [h m m' hm]
    exact hsame
  frame m := (hf m).frame m

/-- What is done with the console alone. -/
theorem within_console (f : Console → α × Console) :
    Within names written
      (fun m => .ok (f m.console).1 { m with console := (f m.console).2 }) where
  agree m m' hm := by
    show AgreeAtEnd names (.ok _ _) (.ok _ _)
    rw [hm.console]
    exact ⟨rfl, rfl, hm.get?⟩
  frame _ _ _ := rfl

end Action

namespace Store

variable {s s' : Store} {x : String}

theorem contains_congr (h : s.get? x = s'.get? x) : s.contains x = s'.contains x := by
  rw [contains_eq_isSome_get?, contains_eq_isSome_get?, h]

theorem declare_of_contains (h : s.contains x = true) (v : Value) :
    s.declare x v = .error (.alreadyDeclared x) :=
  dif_pos h

theorem exists_declare (h : s.contains x = false) (v : Value) : ∃ t, s.declare x v = .ok t :=
  ⟨_, dif_neg (Bool.eq_false_iff.1 h)⟩

end Store

namespace Action

variable {names written : List String} {x : String}

/-- A declaration depends on no other name than the one that it declares. -/
theorem within_declare (hn : x ∈ names) (hw : x ∈ written) (v : Value) (mark : Mark) :
    Within names written (onStore (·.declare x v) mark) := by
  refine within_onStore (fun s s' hs => ?_) fun s t ht y hy => ?_
  · have hc := Store.contains_congr (hs x hn)
    cases hx : s'.contains x with
    | true =>
      rw [Store.declare_of_contains (hc.trans hx), Store.declare_of_contains hx]
    | false =>
      obtain ⟨t, ht⟩ := Store.exists_declare (hc.trans hx) v
      obtain ⟨t', ht'⟩ := Store.exists_declare hx v
      rw [ht, ht']
      intro y hy
      rw [Store.get?_of_declare ht, Store.get?_of_declare ht', hs y hy]
  · have hne : y ≠ x := fun h => hy (h ▸ hw)
    rw [Store.get?_of_declare ht, if_neg hne]

/-- An assignment depends on no other name than its target. -/
theorem within_assign (hn : x ∈ names) (hw : x ∈ written) (v : Value) (mark : Mark) :
    Within names written (onStore (·.assign x v) mark) := by
  refine within_onStore (fun s s' hs => ?_) fun s t ht y hy => ?_
  · have hc := Store.contains_congr (hs x hn)
    unfold Store.assign
    rw [hc]
    cases s'.contains x with
    | true =>
      intro y hy
      rw [Store.get?_update, Store.get?_update, hs x hn, hs y hy]
    | false => rfl
  · have hne : y ≠ x := fun h => hy (h ▸ hw)
    unfold Store.assign at ht
    split at ht
    · cases ht
      rw [Store.get?_update, if_neg hne]
    · cases ht

/-- A loop stays within the names of its test and of its turns. -/
theorem within_repeatWhile {test : Action Bool} {turn : Action Unit}
    (htest : Within names written test) (hturn : Within names written turn) (budget : Nat) :
    Within names written (repeatWhile test turn budget) := by
  induction budget with
  | zero => exact within_throw .budgetSpent
  | succ budget ih =>
    refine htest.bind fun holds => ?_
    cases holds with
    | false => exact within_pure ()
    | true => exact hturn.bind fun _ => ih

end Action

open BisayaPlus.Action

variable {names written : List String}

/-- The value of an expression depends only on the names that occur in it. -/
theorem Expr.eval_congr {s s' : Store} {e : Expr} (h : ∀ x ∈ e.names, s.get? x = s'.get? x) :
    e.eval s = e.eval s' := by
  induction e with
  | literal v mark => rfl
  | name x mark =>
    have hx : s.get? x = s'.get? x := h x (List.mem_singleton_self x)
    rw [Expr.eval, Expr.eval, Store.get, Store.get, hx]
  | unary op e mark ih => rw [Expr.eval, Expr.eval, ih h]
  | binary op l r mark ihl ihr =>
    obtain ⟨hl, hr⟩ := List.forall_mem_append.1 h
    rw [Expr.eval, Expr.eval, ihl hl, ihr hr]

theorem Expr.mapM_eval_congr {s s' : Store} {es : List Expr}
    (h : ∀ e ∈ es, ∀ x ∈ e.names, s.get? x = s'.get? x) :
    es.mapM (·.eval s) = es.mapM (·.eval s') := by
  induction es with
  | nil => rfl
  | cons e es ih =>
    obtain ⟨he, hes⟩ := List.forall_mem_cons.1 h
    rw [List.mapM_cons, List.mapM_cons, eval_congr he, ih hes]

theorem Expr.mem_parts (e : Expr) : e ∈ e.parts := by
  cases e <;> exact List.mem_cons_self

def Expr.Mention (names : List String) (es : List Expr) : Prop :=
  ∀ e ∈ es, e.names ⊆ names

theorem Expr.within_eval {e : Expr} (h : Mention names e.parts) :
    Within names written (ofStore e.eval) :=
  within_ofStore fun _ _ hs => eval_congr fun x hx => hs x (h e e.mem_parts hx)

theorem Expr.within_test {e : Expr} (h : Mention names e.parts) :
    Within names written (ofStore fun s => e.test s) := by
  refine within_ofStore fun s s' hs => ?_
  rw [Expr.test, Expr.test, eval_congr fun x hx => hs x (h e e.mem_parts hx)]

theorem Assignment.within_exec {a : Assignment} (hv : Expr.Mention names a.value.parts)
    (hn : a.targets ⊆ names) (hw : a.targets ⊆ written) : Within names written a.exec := by
  refine (Expr.within_eval hv).bind fun v => within_forM fun x hx => ?_
  exact within_assign (hn hx) (hw hx) v a.mark

theorem Declarator.within_exec {d : Declarator} (hn : d.name ∈ names) (hw : d.name ∈ written)
    (type : DataType) : Within names written (d.exec type) :=
  (within_ofStore fun _ _ _ => rfl).bind fun v => within_declare hn hw v d.mark

namespace Action

theorem within_write (line : String) : Within names written (write line) :=
  within_console fun c => c.write line

def takeLine : Action (List UInt8) := fun m =>
  .ok m.console.readLine.1 { m with console := m.console.readLine.2 }

theorem readLine_eq (targets : List String) (mark : Mark) :
    readLine targets mark = (do
      match Text.decode? (← takeLine) with
      | none => fail (.runtime .undecodableLine) mark
      | some text =>
        if text.isEmpty then
          fail (.runtime (.endOfInput targets)) mark
        return text) :=
  rfl

/-- Output depends on the names in its expressions and writes none. -/
theorem within_output {es : List Expr} (h : Expr.Mention names (es.flatMap Expr.parts))
    (span : Span) : Within names written (output es span) := by
  have heval : Within names written (ofStore fun s => es.mapM (·.eval s)) :=
    within_ofStore fun s s' hs => Expr.mapM_eval_congr fun e he x hx =>
      hs x (h e (List.mem_flatMap.2 ⟨e, he, e.mem_parts⟩) hx)
  refine heval.bind fun vs => (within_write _).bind fun answer => ?_
  cases answer with
  | ok => exact within_pure ()
  | error reason => exact within_throw _

/-- Reading a line depends on no name and writes none. -/
theorem within_readLine (targets : List String) (mark : Mark) :
    Within names written (readLine targets mark) := by
  rw [readLine_eq]
  refine (within_console Console.readLine).bind fun line => ?_
  cases Text.decode? line with
  | none => exact within_throw _
  | some text =>
    by_cases hempty : text.isEmpty
    · simp only [hempty, if_true]
      exact within_throw _
    · simp only [hempty]
      exact within_pure text

/-- Input depends on its targets and writes no other name. -/
theorem within_input {targets : List String} (hn : targets ⊆ names) (hw : targets ⊆ written)
    (mark : Mark) : Within names written (input targets mark) := by
  have hseen : ∀ m m' : Machine, m.Agree names m' →
      targets.find? (!m.store.contains ·) = targets.find? (!m'.store.contains ·) := by
    intro m m' hm
    refine List.find?_congr fun x hx => ?_
    rw [Store.contains_congr (hm.get? x (hn hx))]
  have hassign : ∀ pieces, Within names written (assignPieces targets pieces mark) := by
    intro pieces
    refine within_forM fun b hb => ?_
    have hx := (List.of_mem_zip hb).1
    exact within_assign (hn hx) (hw hx) _ mark
  rw [input_eq]
  refine Within.bind ?_ hassign
  unfold readPieces
  refine within_get (fun m m' hm => by rw [hseen m m' hm]) fun m => ?_
  cases targets.find? (!m.store.contains ·) with
  | some name => exact within_throw _
  | none =>
    refine (within_readLine targets mark).bind fun line => ?_
    by_cases hfew : (Console.pieces line).length < targets.length
    · simp only [hfew, if_true]
      exact within_throw _
    · simp only [hfew, if_false]
      exact within_pure _

end Action

structure Covered (names written : List String) (es : List Expr) (xs : List String) : Prop where
  mention : Expr.Mention names es
  known : xs ⊆ names
  allowed : xs ⊆ written

theorem Covered.split {es fs : List Expr} {xs ys : List String}
    (h : Covered names written (es ++ fs) (xs ++ ys)) :
    Covered names written es xs ∧ Covered names written fs ys := by
  obtain ⟨hes, hfs⟩ := List.forall_mem_append.1 h.mention
  obtain ⟨hxs, hys⟩ := List.append_subset.1 h.known
  obtain ⟨hxs', hys'⟩ := List.append_subset.1 h.allowed
  exact ⟨⟨hes, hxs, hxs'⟩, hfs, hys, hys'⟩

theorem Covered.split_mention {es fs : List Expr} {xs : List String}
    (h : Covered names written (es ++ fs) xs) :
    Expr.Mention names es ∧ Covered names written fs xs := by
  obtain ⟨hes, hfs⟩ := List.forall_mem_append.1 h.mention
  exact ⟨hes, hfs, h.known, h.allowed⟩

mutual

/-- A statement depends on the names in it, and changes only those that it writes. -/
theorem Stmt.within_exec {s : Stmt} (h : Covered names written s.exprs s.written) (budget : Nat) :
    Within names written (s.exec budget) := by
  cases s with
  | declaration type ds span =>
    refine within_forM fun d hd => ?_
    have hmem : d.name ∈ ds.map (·.name) := List.mem_map_of_mem hd
    exact Declarator.within_exec (h.known hmem) (h.allowed hmem) type
  | assignment a => exact Assignment.within_exec h.mention h.known h.allowed
  | output es span => exact within_output h.mention span
  | input targets mark => exact within_input h.known h.allowed mark
  | conditional first others otherwise span =>
    obtain ⟨hfirst, h⟩ := h.split
    obtain ⟨hothers, hotherwise⟩ := h.split
    exact Branch.within_exec hfirst budget
      (Branch.within_execAll hothers budget (Block.within_execOptional hotherwise budget))
  | loop initializer condition increment body span =>
    obtain ⟨hinitializer, h⟩ := h.split
    obtain ⟨hcondition, h⟩ := h.split_mention
    obtain ⟨hincrement, hbody⟩ := h.split
    have hturn := (Block.within_exec hbody budget).bind fun _ =>
      Assignment.within_exec hincrement.mention hincrement.known hincrement.allowed
    exact (Stmt.within_exec hinitializer budget).bind fun _ =>
      within_repeatWhile (Expr.within_test hcondition) hturn budget

theorem Branch.within_exec {b : Branch} (h : Covered names written b.exprs b.written)
    (budget : Nat) {alternative : Action Unit} (ha : Within names written alternative) :
    Within names written (b.exec budget alternative) := by
  cases b with
  | mk condition body =>
    obtain ⟨hcondition, hbody⟩ := h.split_mention
    refine (Expr.within_test hcondition).bind fun holds => ?_
    cases holds with
    | false => exact ha
    | true => exact Block.within_exec hbody budget

theorem Branch.within_execAll {bs : List Branch}
    (h : Covered names written (Branch.exprsAll bs) (Branch.writtenAll bs)) (budget : Nat)
    {alternative : Action Unit} (ha : Within names written alternative) :
    Within names written (Branch.execAll budget bs alternative) := by
  cases bs with
  | nil => exact ha
  | cons b bs =>
    exact Branch.within_exec h.split.1 budget (Branch.within_execAll h.split.2 budget ha)

theorem Block.within_exec {b : Block} (h : Covered names written b.exprs b.written)
    (budget : Nat) : Within names written (b.exec budget) := by
  cases b with
  | mk statements span => exact Stmt.within_execAll h budget

theorem Block.within_execOptional {b : Option Block}
    (h : Covered names written (Block.exprsOptional b) (Block.writtenOptional b)) (budget : Nat) :
    Within names written (Block.execOptional budget b) := by
  cases b with
  | none => exact within_pure ()
  | some b => exact Block.within_exec h budget

theorem Stmt.within_execAll {ss : List Stmt}
    (h : Covered names written (Stmt.exprsAll ss) (Stmt.writtenAll ss)) (budget : Nat) :
    Within names written (Stmt.execAll budget ss) := by
  cases ss with
  | nil => exact within_pure ()
  | cons s ss =>
    exact (Stmt.within_exec h.split.1 budget).bind fun _ => Stmt.within_execAll h.split.2 budget

end

theorem Stmt.covered (s : Stmt) : Covered s.names s.written s.exprs s.written where
  mention e he _ hx := List.mem_append_right _ (List.mem_flatMap.2 ⟨e, he, hx⟩)
  known _ hx := List.mem_append_left _ hx
  allowed _ hx := hx

theorem Action.AgreeAtEnd.hasEnded {r r' : EStateM.Result Interrupt Machine Unit}
    (h : AgreeAtEnd names r r') (hr : hasEnded r = true) : hasEnded r' = true := by
  rcases r with ⟨a, m⟩ | ⟨i, m⟩ <;> rcases r' with ⟨a', m'⟩ | ⟨i', m'⟩
  · rfl
  · exact h.elim
  · exact h.elim
  · obtain ⟨rfl, -⟩ := h
    cases i with
    | fault d => rfl
    | budgetSpent => cases hr

/-- If a statement ends on a machine, it ends alike on each machine with the same console that
agrees on the names in the statement, and the machines agree on these names afterwards. On each
machine where it ends, the names that it does not write are as they were. -/
theorem Stmt.ends_of_agree {s : Stmt} {m m' : Machine}
    {r : EStateM.Result Interrupt Machine Unit} (hm : m.Agree s.names m') (h : s.Ends m r) :
    ∃ r', s.Ends m' r' ∧ AgreeAtEnd s.names r r' ∧
      (∀ x ∉ s.written, (machineAtEnd r).store.get? x = m.store.get? x) ∧
      ∀ x ∉ s.written, (machineAtEnd r').store.get? x = m'.store.get? x := by
  obtain ⟨budget, rfl, hend⟩ := h
  have hwithin := Stmt.within_exec s.covered budget
  have hagree : AgreeAtEnd s.names (s.exec budget m) (s.exec budget m') := hwithin.agree m m' hm
  exact ⟨s.exec budget m', ⟨budget, rfl, hagree.hasEnded hend⟩, hagree, hwithin.frame m,
    hwithin.frame m'⟩

/-- A loop counts to the value of a name, on machines that differ in a name it does not know. -/
theorem Stmt.ends_of_agree_counting :
    let mark : Mark := ⟨⟨0, 1⟩, 1⟩
    let one : Value := .number (.ofNat 1)
    let i : Expr := .name "i" mark
    let counting : Stmt := .loop (.assignment ⟨["i"], .literal one mark, mark⟩)
      (.binary .lessEqual i (.name "n" mark) mark)
      ⟨["i"], .binary .add i (.literal one mark) mark, mark⟩ (.mk [.output [i] ⟨0, 1⟩] ⟨0, 1⟩)
      ⟨0, 1⟩
    let m : Machine := ⟨⟨[("i", one), ("n", .number (.ofNat 2))], by decide⟩, .ofInput []⟩
    let m' : Machine := ⟨⟨[("y", one), ("n", .number (.ofNat 2)), ("i", one)], by decide⟩,
      .ofInput []⟩
    (machineAtEnd (counting.exec 3 m)).console.output = "1\n2\n" ∧
      ∃ r', counting.Ends m' r' ∧ AgreeAtEnd counting.names (counting.exec 3 m) r' ∧
        (∀ x ∉ counting.written,
          (machineAtEnd (counting.exec 3 m)).store.get? x = m.store.get? x) ∧
        ∀ x ∉ counting.written, (machineAtEnd r').store.get? x = m'.store.get? x := by
  intro mark one i counting m m'
  have hagree : m.Agree counting.names m' := ⟨rfl, by decide +kernel⟩
  have hend : hasEnded (counting.exec 3 m) = true := by decide +kernel
  exact ⟨by decide +kernel, Stmt.ends_of_agree hagree ⟨3, rfl, hend⟩⟩

end BisayaPlus
