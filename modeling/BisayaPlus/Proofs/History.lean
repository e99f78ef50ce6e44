import BisayaPlus.Proofs.Footprint

/-!
Runs only move forward. What a run does that lasts is written down as a list of events: the names
that it declares, the lines that the sink takes and the lines that it reads from the input. A
machine afterwards is the machine before with these events added, also where the run failed. No
name is declared twice in the life of a machine, and its sink may be another for each program.
-/

namespace BisayaPlus

/-- What a step does that lasts. A read takes the next line of the input, if there is one. -/
inductive Event where
  | declared (name : String)
  | wrote (text : String)
  | read
  deriving DecidableEq

namespace Event

def name? : Event → Option String
  | .declared x => some x
  | _ => none

def output : Event → String
  | .wrote text => text ++ "\n"
  | _ => ""

end Event

def Expr.displayAll (s : Store) (es : List Expr) : Except Diagnostic String := do
  let vs ← es.mapM (·.eval s)
  return String.join (vs.map Value.display)

namespace Task

/-- The events of a task's step. A declaration has one if it succeeds, an output statement if the
sink takes its line, even if the flush fails then, and an input statement if it knows all its
names, even if it fails then. -/
def events (t : Task) (m : Machine) : List Event :=
  match t with
  | .declare _ d =>
    match t.step m with
    | .ok _ _ => [.declared d.name]
    | .error _ _ => []
  | .statement (.output values _) =>
    match Expr.displayAll m.store values with
    | .ok text => if m.console.takes (text ++ "\n") then [.wrote text] else []
    | .error _ => []
  | .statement (.input targets _) => if targets.all m.store.contains then [.read] else []
  | _ => []

end Task

mutual

def Stmt.declared : Stmt → List String
  | .declaration _ ds _ => ds.map (·.name)
  | .assignment _ | .output .. | .input .. => []
  | .conditional first others otherwise _ =>
    first.declared ++ (Branch.declaredAll others ++ Block.declaredOptional otherwise)
  | .loop initializer _ _ body _ => initializer.declared ++ body.declared

def Branch.declared : Branch → List String
  | .mk _ body => body.declared

def Branch.declaredAll : List Branch → List String
  | [] => []
  | b :: bs => b.declared ++ Branch.declaredAll bs

def Block.declared : Block → List String
  | .mk statements _ => Stmt.declaredAll statements

def Block.declaredOptional : Option Block → List String
  | none => []
  | some b => b.declared

def Stmt.declaredAll : List Stmt → List String
  | [] => []
  | s :: ss => s.declared ++ Stmt.declaredAll ss

end

def Task.declared : Task → List String
  | .statement s => s.declared
  | .declare _ d => [d.name]
  | .assign .. => []
  | .branches bs otherwise => Branch.declaredAll bs ++ Block.declaredOptional otherwise
  | .turns _ _ body => body.declared

/-- A run from one point to another, with its events in their order. -/
inductive Runs : Point → List Event → Point → Prop
  | refl (p : Point) : Runs p [] p
  | head {m : Machine} {t : Task} {ts : List Task} {q r : Point} {es : List Event}
      (h : Moves (m, t :: ts) q) (hr : Runs q es r) : Runs (m, t :: ts) (t.events m ++ es) r

def Console.dropLines : Nat → List UInt8 → List UInt8
  | 0, bytes => bytes
  | n + 1, bytes => dropLines n (firstLine bytes).2

/-- One machine is another after some events. -/
structure Machine.Advances (m : Machine) (es : List Event) (m' : Machine) : Prop where
  contains_iff : ∀ x, m'.store.contains x = true ↔
    m.store.contains x = true ∨ .declared x ∈ es
  fresh : ∀ x, .declared x ∈ es → m.store.contains x = false
  once : (es.filterMap Event.name?).Nodup
  output : m'.console.output = m.console.output ++ String.join (es.map Event.output)
  input : m'.console.input = Console.dropLines (es.count .read) m.console.input

namespace Event

theorem mem_filterMap_name? {x : String} {es : List Event} :
    x ∈ es.filterMap name? ↔ .declared x ∈ es := by
  rw [List.mem_filterMap]
  constructor
  · rintro ⟨e, he, hx⟩
    cases e with
    | declared y =>
      obtain rfl : y = x := Option.some.inj hx
      exact he
    | wrote text => cases hx
    | read => cases hx
  · intro h
    exact ⟨_, h, rfl⟩

end Event

theorem Console.dropLines_add (m n : Nat) (bytes : List UInt8) :
    dropLines (m + n) bytes = dropLines n (dropLines m bytes) := by
  induction m generalizing bytes with
  | zero => rw [Nat.zero_add, dropLines]
  | succ m ih =>
    rw [Nat.succ_add]
    exact ih (firstLine bytes).2

namespace Machine

variable {m m' m'' : Machine} {es es' : List Event}

/-- What leaves the store, the output and the input as they are has no events. -/
theorem Advances.of_same (hstore : m'.store = m.store)
    (houtput : m'.console.output = m.console.output) (hinput : m'.console.input = m.console.input) :
    m.Advances [] m' where
  contains_iff x := by simp [hstore]
  fresh x h := by simp at h
  once := List.nodup_nil
  output := by simp [houtput]
  input := hinput

theorem Advances.refl (m : Machine) : m.Advances [] m :=
  .of_same rfl rfl rfl

/-- A machine advances by some events and then by others. -/
theorem Advances.trans (h : m.Advances es m') (h' : m'.Advances es' m'') :
    m.Advances (es ++ es') m'' where
  contains_iff x := by
    rw [h'.contains_iff, h.contains_iff, List.mem_append, or_assoc]
  fresh x hx := by
    rcases List.mem_append.1 hx with hx | hx
    · exact h.fresh x hx
    · have hnot := h'.fresh x hx
      by_contra hm
      have hthere := (h.contains_iff x).2 (.inl (Bool.not_eq_false _ ▸ hm))
      rw [hnot] at hthere
      cases hthere
  once := by
    rw [List.filterMap_append]
    refine List.nodup_append.2 ⟨h.once, h'.once, fun x hx y hy => ?_⟩
    rintro rfl
    have hthere := (h.contains_iff x).2 (.inr (Event.mem_filterMap_name?.1 hx))
    rw [h'.fresh x (Event.mem_filterMap_name?.1 hy)] at hthere
    cases hthere
  output := by
    rw [h'.output, h.output, List.map_append, String.join_append, String.append_assoc]
  input := by
    rw [h'.input, h.input, List.count_append, Console.dropLines_add]

theorem Advances.of_eq (h : m' = m) : m.Advances [] m' :=
  h ▸ .refl m

end Machine

namespace Action

variable {α β : Type}

theorem machineAtEnd_bind_pure (x : Action α) (f : α → β) (m : Machine) :
    machineAtEnd ((x >>= fun a => pure (f a)) m) = machineAtEnd (x m) := by
  cases hr : x m with
  | ok a m' =>
    rw [bind_apply_of_ok hr]
    rfl
  | error i m' =>
    rw [bind_apply_of_error hr]
    rfl

theorem machineAtEnd_ofStore (f : Store → Except Diagnostic α) (m : Machine) :
    machineAtEnd (ofStore f m) = m := by
  unfold ofStore
  cases f m.store <;> rfl

end Action

namespace Store

/-- A declaration adds its name and no other one. -/
theorem contains_of_declare {s t : Store} {name : String} {v : Value}
    (h : s.declare name v = .ok t) (x : String) :
    t.contains x = true ↔ s.contains x = true ∨ x = name := by
  rw [contains_eq_isSome_get?, contains_eq_isSome_get?, get?_of_declare h]
  by_cases hx : x = name <;> simp [hx]

theorem contains_eq_false_of_declare {s t : Store} {name : String} {v : Value}
    (h : s.declare name v = .ok t) : s.contains name = false := by
  by_contra hc
  rw [declare_of_contains (by simpa using hc)] at h
  cases h

theorem contains_of_assign {s t : Store} {name : String} {v : Value}
    (h : s.assign name v = .ok t) (x : String) : t.contains x = s.contains x := by
  unfold assign at h
  split at h
  · cases h
    rw [contains_eq_isSome_get?, contains_eq_isSome_get?, get?_update]
    by_cases hx : x = name <;> simp [hx]
  · cases h

end Store

namespace Action

variable {α : Type}

/-- What is computed from the store either goes on or ends the run, on the same machine. -/
theorem ofStore_cases (f : Store → Except Diagnostic α) (m : Machine) :
    (∃ a, f m.store = .ok a ∧ ofStore f m = .ok a m) ∨ ∃ i, ofStore f m = .error i m := by
  unfold ofStore
  cases f m.store with
  | ok a => exact .inl ⟨a, rfl, rfl⟩
  | error d => exact .inr ⟨_, rfl⟩

theorem onStore_cases (f : Store → Except NameFault Store) (mark : Mark) (m : Machine) :
    (∃ s, f m.store = .ok s ∧ onStore f mark m = .ok () { m with store := s }) ∨
      ∃ i, onStore f mark m = .error i m := by
  unfold onStore
  cases f m.store with
  | ok s => exact .inl ⟨s, rfl, rfl⟩
  | error fault => exact .inr ⟨_, rfl⟩

/-- If its values have texts, an output statement gives their line to the sink and changes nothing
else. Otherwise it changes nothing. -/
theorem output_cases (values : List Expr) (span : Span) (m : Machine) :
    (∃ text, Expr.displayAll m.store values = .ok text ∧
      machineAtEnd (output values span m) =
        { m with console := (m.console.write (text ++ "\n")).2 }) ∨
      ∃ d, Expr.displayAll m.store values = .error d ∧
        output values span m = .error (.fault d) m := by
  have hdisplay : Expr.displayAll m.store values =
    values.mapM (·.eval m.store) >>= fun vs => pure (String.join (vs.map Value.display)) := rfl
  rw [hdisplay]
  unfold output
  cases hvs : values.mapM (·.eval m.store) with
  | error d =>
    have hrun : ofStore (fun s => values.mapM (·.eval s)) m = .error (.fault d) m := by
      rw [ofStore, hvs]
    exact .inr ⟨d, rfl, bind_apply_of_error hrun⟩
  | ok vs =>
    have hrun : ofStore (fun s => values.mapM (·.eval s)) m = .ok vs m := by
      rw [ofStore, hvs]
    refine .inl ⟨_, rfl, ?_⟩
    rw [bind_apply_of_ok hrun]
    generalize String.join (vs.map Value.display) ++ "\n" = line
    have hwrite : write line m =
      .ok (m.console.write line).1 { m with console := (m.console.write line).2 } := rfl
    rw [bind_apply_of_ok hwrite]
    cases (m.console.write line).1 <;> rfl

theorem machineAtEnd_readLine (targets : List String) (mark : Mark) (m : Machine) :
    machineAtEnd (readLine targets mark m) = { m with console := m.console.readLine.2 } := by
  have htake : takeLine m =
      .ok m.console.readLine.1 { m with console := m.console.readLine.2 } := rfl
  rw [readLine_eq, bind_apply_of_ok htake]
  cases Text.decode? m.console.readLine.1 with
  | none => rfl
  | some text =>
    cases h : text.isEmpty <;> simp only [h] <;> rfl

/-- A line is taken from the input if all names are known, whatever comes of it. -/
theorem machineAtEnd_readPieces (targets : List String) (mark : Mark) (m : Machine) :
    machineAtEnd (readPieces targets mark m) =
      if targets.all m.store.contains then { m with console := m.console.readLine.2 } else m := by
  have hget : (get : Action Machine) m = .ok m m := rfl
  unfold readPieces
  rw [bind_apply_of_ok hget]
  cases hfind : targets.find? (!m.store.contains ·) with
  | some name =>
    have hall : ¬targets.all m.store.contains = true := by
      intro hall
      have hname := List.find?_some hfind
      rw [List.all_eq_true.1 hall name (List.mem_of_find?_eq_some hfind)] at hname
      cases hname
    rw [if_neg hall]
    rfl
  | none =>
    have hall : targets.all m.store.contains = true := by
      refine List.all_eq_true.2 fun x hx => ?_
      simpa using List.find?_eq_none.1 hfind x hx
    rw [if_pos hall, ← machineAtEnd_readLine targets mark m]
    dsimp only
    cases hr : readLine targets mark m with
    | error i m' => rw [bind_apply_of_error hr]; rfl
    | ok line m' =>
      rw [bind_apply_of_ok hr]
      by_cases hfew : (Console.pieces line).length < targets.length <;>
        simp only [hfew, if_true, if_false] <;> rfl

end Action

open BisayaPlus.Action

/-- A declaration adds its name to the store, or the machine stays as it is. -/
theorem Declarator.exec_cases (d : Declarator) (type : DataType) (m : Machine) :
    (∃ v s, m.store.declare d.name v = .ok s ∧ d.exec type m = .ok () { m with store := s }) ∨
      ∃ i, d.exec type m = .error i m := by
  unfold Declarator.exec
  rcases ofStore_cases _ m with ⟨v, -, hv⟩ | ⟨i, hi⟩
  · rw [bind_apply_of_ok hv]
    rcases onStore_cases (·.declare d.name v) d.mark m with ⟨s, hs, hrun⟩ | ⟨i, hi⟩
    · exact .inl ⟨v, s, hs, hrun⟩
    · exact .inr ⟨i, hi⟩
  · exact .inr ⟨i, bind_apply_of_error hi⟩

namespace Task

/-- A declarator declares its name, or nothing happens. -/
theorem advances_declare (type : DataType) (d : Declarator) (m : Machine) :
    m.Advances ((Task.declare type d).events m) (machineAtEnd ((Task.declare type d).step m)) := by
  rcases d.exec_cases type m with ⟨v, s, hs, hrun⟩ | ⟨i, hi⟩
  · have hstep : (Task.declare type d).step m = .ok [] { m with store := s } :=
      bind_apply_of_ok hrun
    rw [events, hstep]
    exact {
      contains_iff x := by
        rw [List.mem_singleton, Event.declared.injEq]
        exact Store.contains_of_declare hs x
      fresh x hx := by
        rw [List.mem_singleton, Event.declared.injEq] at hx
        rw [hx]
        exact Store.contains_eq_false_of_declare hs
      once := List.pairwise_singleton _ _
      output := (String.append_empty).symm
      input := rfl }
  · have hstep : (Task.declare type d).step m = .error i m := bind_apply_of_error hi
    rw [events, hstep]
    exact .refl m

/-- Output adds its line, unless an expression fails or the sink refuses the line. -/
theorem advances_output (values : List Expr) (span : Span) (m : Machine) :
    m.Advances ((Task.statement (.output values span)).events m)
      (machineAtEnd ((Task.statement (.output values span)).step m)) := by
  rw [step, machineAtEnd_bind_pure, events]
  rcases output_cases values span m with ⟨text, htext, hend⟩ | ⟨d, hd, hrun⟩
  · rw [htext, hend]
    dsimp only
    by_cases htakes : m.console.takes (text ++ "\n")
    · rw [if_pos htakes]
      exact {
        contains_iff x := by simp
        fresh x hx := by simp at hx
        once := List.nodup_nil
        output := by simp [Console.write, htakes, Event.output]
        input := rfl }
    · rw [if_neg htakes]
      exact .of_same rfl (if_neg htakes) rfl
  · rw [hd, hrun]
    exact .refl m

/-- Input takes a line even if it fails then, but not if one of its names is unknown. -/
theorem advances_input (targets : List String) (mark : Mark) (m : Machine) :
    m.Advances ((Task.statement (.input targets mark)).events m)
      (machineAtEnd ((Task.statement (.input targets mark)).step m)) := by
  have hend := machineAtEnd_readPieces targets mark m
  rw [events, step, machineAtEnd_bind_pure, hend]
  by_cases hall : targets.all m.store.contains
  · rw [if_pos hall, if_pos hall]
    exact {
      contains_iff x := by simp
      fresh x hx := by simp at hx
      once := List.nodup_nil
      output := (String.append_empty).symm
      input := rfl }
  · rw [if_neg hall, if_neg hall]
    exact .refl m

theorem advances_assign (x : String) (v : Value) (mark : Mark) (m : Machine) :
    m.Advances [] (machineAtEnd ((Task.assign x v mark).step m)) := by
  rw [step, machineAtEnd_bind_pure]
  rcases onStore_cases (·.assign x v) mark m with ⟨s, hs, hrun⟩ | ⟨i, hi⟩
  · rw [hrun]
    exact {
      contains_iff y := by
        rw [machineAtEnd, Store.contains_of_assign hs]
        simp
      fresh y hy := by simp at hy
      once := List.nodup_nil
      output := (String.append_empty).symm
      input := rfl }
  · rw [hi]
    exact .refl m

/-- A step takes the machine as far as its events say. -/
theorem advances (t : Task) (m : Machine) :
    m.Advances (t.events m) (machineAtEnd (t.step m)) := by
  cases t with
  | statement s =>
    cases s with
    | output values span => exact advances_output values span m
    | input targets mark => exact advances_input targets mark m
    | assignment a =>
      refine .of_eq ?_
      rw [step, machineAtEnd_bind_pure, machineAtEnd_ofStore]
    | declaration | conditional | loop => exact .refl m
  | declare type d => exact advances_declare type d m
  | assign x v mark => exact advances_assign x v mark m
  | branches bs otherwise =>
    cases bs with
    | nil => cases otherwise <;> exact .refl m
    | cons b bs =>
      refine .of_eq ?_
      rw [step, machineAtEnd_bind_pure, machineAtEnd_ofStore]
  | turns condition increment body =>
    refine .of_eq ?_
    rw [step, machineAtEnd_bind_pure, machineAtEnd_ofStore]

end Task

theorem Moves.exists_cons {p q : Point} (h : Moves p q) : ∃ m t ts, p = (m, t :: ts) := by
  cases h with
  | step => exact ⟨_, _, _, rfl⟩
  | fault => exact ⟨_, _, _, rfl⟩

/-- Each step of a run advances the machine by the events of its task. -/
theorem Moves.advances {m : Machine} {t : Task} {ts : List Task} {q : Point}
    (h : Moves (m, t :: ts) q) : m.Advances (t.events m) q.1 := by
  have hstep := t.advances m
  cases h with
  | step hrun =>
    rw [hrun] at hstep
    exact hstep
  | fault hrun =>
    rw [hrun] at hstep
    exact hstep

namespace Runs

variable {p q r : Point} {es es' : List Event}

/-- A run advances the machine by the events of all its steps. -/
theorem advances (h : Runs p es q) : p.1.Advances es q.1 := by
  induction h with
  | refl p => exact .refl p.1
  | head hmove _ ih => exact hmove.advances.trans ih

/-- Every run has its events. -/
theorem of_reaches (h : Reaches p q) : ∃ es, Runs p es q := by
  induction h using Relation.ReflTransGen.head_induction_on with
  | refl => exact ⟨[], .refl q⟩
  | head hmove _ ih =>
    obtain ⟨es, hruns⟩ := ih
    obtain ⟨m, t, ts, rfl⟩ := hmove.exists_cons
    exact ⟨t.events m ++ es, .head hmove hruns⟩

end Runs

theorem Stmt.declared_subset_of_mem {s : Stmt} {ss : List Stmt} (h : s ∈ ss) :
    s.declared ⊆ Stmt.declaredAll ss := by
  induction h with
  | head ss => exact List.subset_append_left _ _
  | tail b _ ih => exact fun x hx => List.mem_append_right _ (ih hx)

theorem Block.declared_subset_of_mem {b : Block} {t : Task} (h : t ∈ b.tasks) :
    t.declared ⊆ b.declared := by
  obtain ⟨s, hs, rfl⟩ := List.mem_map.1 h
  cases b with
  | mk statements span => exact Stmt.declared_subset_of_mem hs

namespace Task

/-- A task declares only names that stand in its declarations. -/
theorem mem_declared_of_mem_events {t : Task} {m : Machine} {x : String}
    (h : .declared x ∈ t.events m) : x ∈ t.declared := by
  cases t with
  | statement s =>
    cases s with
    | output values span =>
      rw [events] at h
      split at h <;> simp at h
    | input targets mark =>
      rw [events] at h
      split at h <;> simp at h
    | declaration | assignment | conditional | loop => cases h
  | declare type d =>
    rw [events] at h
    split at h
    · exact List.mem_singleton.2 (Event.declared.inj (List.mem_singleton.1 h))
    · cases h
  | assign | branches | turns => cases h

theorem exists_of_bind_pure_eq_ok {α β : Type} {x : Action α} {f : α → β} {m m' : Machine} {b : β}
    (h : (x >>= fun a => pure (f a)) m = .ok b m') : ∃ a, b = f a := by
  cases hr : x m with
  | ok a m'' =>
    rw [bind_apply_of_ok hr] at h
    cases h
    exact ⟨a, rfl⟩
  | error i m'' =>
    rw [bind_apply_of_error hr] at h
    cases h

/-- A step leads to no tasks that could declare other names. -/
theorem declared_subset_of_step {t : Task} {new : List Task} {m m' : Machine}
    (h : t.step m = .ok new m') : ∀ u ∈ new, u.declared ⊆ t.declared := by
  cases t with
  | statement s =>
    cases s with
    | declaration type ds span =>
      cases h
      refine List.forall_mem_map.2 fun d hd => ?_
      exact fun x hx => List.mem_singleton.1 hx ▸ List.mem_map_of_mem hd
    | assignment a =>
      obtain ⟨v, rfl⟩ := exists_of_bind_pure_eq_ok h
      exact List.forall_mem_map.2 fun _ _ => List.nil_subset _
    | output values span =>
      obtain ⟨-, rfl⟩ := exists_of_bind_pure_eq_ok h
      simp
    | input targets mark =>
      obtain ⟨pieces, rfl⟩ := exists_of_bind_pure_eq_ok h
      exact List.forall_mem_map.2 fun _ _ => List.nil_subset _
    | conditional first others otherwise span =>
      cases h
      refine List.forall_mem_singleton.2 ?_
      rw [declared, declared, Branch.declaredAll, Stmt.declared, List.append_assoc]
      exact List.Subset.refl _
    | loop initializer condition increment body span =>
      cases h
      refine List.forall_mem_cons.2 ⟨?_, List.forall_mem_singleton.2 ?_⟩
      · exact List.subset_append_left _ _
      · exact List.subset_append_right _ _
  | declare type d =>
    obtain ⟨-, rfl⟩ := exists_of_bind_pure_eq_ok h
    simp
  | assign x v mark =>
    obtain ⟨-, rfl⟩ := exists_of_bind_pure_eq_ok h
    simp
  | branches bs otherwise =>
    cases bs with
    | nil =>
      cases otherwise with
      | none =>
        cases h
        simp
      | some b =>
        cases h
        exact fun u hu => Block.declared_subset_of_mem hu
    | cons b bs =>
      obtain ⟨holds, rfl⟩ := exists_of_bind_pure_eq_ok h
      cases b with
      | mk condition body =>
        have hdeclared : (Task.branches (.mk condition body :: bs) otherwise).declared =
            body.declared ++ (Task.branches bs otherwise).declared := List.append_assoc _ _ _
        rw [hdeclared]
        cases holds with
        | false =>
          exact List.forall_mem_singleton.2 (List.subset_append_right _ _)
        | true =>
          exact fun u hu =>
            List.Subset.trans (Block.declared_subset_of_mem hu) (List.subset_append_left _ _)
  | turns condition increment body =>
    obtain ⟨holds, rfl⟩ := exists_of_bind_pure_eq_ok h
    cases holds with
    | false => simp
    | true =>
      refine List.forall_mem_append.2 ⟨fun u hu => Block.declared_subset_of_mem hu, ?_⟩
      refine List.forall_mem_cons.2 ⟨List.nil_subset _, List.forall_mem_singleton.2 ?_⟩
      exact List.Subset.refl _

end Task

/-- A run declares no names but those that its tasks can declare. -/
theorem Runs.mem_of_declared {p q : Point} {es : List Event} {names : List String} {x : String}
    (h : Runs p es q) (hp : ∀ t ∈ p.2, t.declared ⊆ names) (hx : .declared x ∈ es) :
    x ∈ names := by
  induction h with
  | refl p => cases hx
  | head hmove _ ih =>
    obtain ⟨ht, hts⟩ := List.forall_mem_cons.1 hp
    rcases List.mem_append.1 hx with hx | hx
    · exact ht (Task.mem_declared_of_mem_events hx)
    · refine ih ?_ hx
      cases hmove with
      | step hstep =>
        refine List.forall_mem_append.2 ⟨fun u hu => ?_, hts⟩
        exact List.Subset.trans (Task.declared_subset_of_step hstep u hu) ht
      | fault => simp

/-- The events of a run of some tasks, with its result. If the run has ended, none of the tasks is
left. -/
def Records (m : Machine) (tasks : List Task) (es : List Event)
    (r : EStateM.Result Interrupt Machine Unit) : Prop :=
  ∃ left, Runs (m, tasks) es (machineAtEnd r, left) ∧ (hasEnded r = true → left = [])

namespace Records

variable {m : Machine} {tasks : List Task} {es : List Event}
  {r : EStateM.Result Interrupt Machine Unit}

theorem advances (h : Records m tasks es r) : m.Advances es (machineAtEnd r) := by
  obtain ⟨_, hruns, -⟩ := h
  exact hruns.advances

/-- The names that a run declares stand in the declarations of its tasks. -/
theorem mem_of_declared {names : List String} {x : String} (h : Records m tasks es r)
    (htasks : ∀ t ∈ tasks, t.declared ⊆ names) (hx : .declared x ∈ es) : x ∈ names := by
  obtain ⟨_, hruns, -⟩ := h
  exact hruns.mem_of_declared htasks hx

end Records

def Machine.withSink (m : Machine) (sink : Sink) : Machine :=
  { m with console.sink := sink }

/-- Another sink changes neither the store nor what was read and written. -/
theorem Machine.advances_withSink (m : Machine) (sink : Sink) : m.Advances [] (m.withSink sink) :=
  .of_same rfl rfl rfl

/-- Runs programs one after another, each to its end or to where it fails, and each with a sink of
its own. -/
def Machine.runAll (budget : Nat) : List (Sink × Program) → Machine → Machine
  | [], m => m
  | (sink, p) :: ps, m => runAll budget ps (machineAtEnd (p.exec budget (m.withSink sink)))

/-- The events of programs that are run one after another. -/
inductive RecordsAll (budget : Nat) : Machine → List (Sink × Program) → List Event → Prop
  | nil (m : Machine) : RecordsAll budget m [] []
  | cons {m : Machine} {sink : Sink} {p : Program} {ps : List (Sink × Program)}
      {es es' : List Event}
      (h : Records (m.withSink sink) p.tasks es (p.exec budget (m.withSink sink)))
      (hs : RecordsAll budget (machineAtEnd (p.exec budget (m.withSink sink))) ps es') :
      RecordsAll budget m ((sink, p) :: ps) (es ++ es')

/-- Programs that are run one after another take the machine as far as their events say, whatever
the sinks answer. -/
theorem RecordsAll.advances {budget : Nat} {m : Machine} {ps : List (Sink × Program)}
    {es : List Event} (h : RecordsAll budget m ps es) : m.Advances es (m.runAll budget ps) := by
  induction h with
  | nil m => exact .refl m
  | @cons m sink p ps es es' hrecords _ ih =>
    have hprogram := (m.advances_withSink sink).trans hrecords.advances
    exact hprogram.trans ih

/-- Each name that is declared stands in a declaration of one of the programs. -/
theorem RecordsAll.mem_of_declared {budget : Nat} {m : Machine} {ps : List (Sink × Program)}
    {es : List Event} {x : String} (h : RecordsAll budget m ps es) (hx : .declared x ∈ es) :
    ∃ p ∈ ps, x ∈ Stmt.declaredAll p.2.statements := by
  induction h with
  | nil m => cases hx
  | @cons m sink p ps es es' hrecords _ ih =>
    rcases List.mem_append.1 hx with hx | hx
    · refine ⟨(sink, p), List.mem_cons_self, hrecords.mem_of_declared (fun t ht => ?_) hx⟩
      obtain ⟨s, hs, rfl⟩ := List.mem_map.1 ht
      exact Stmt.declared_subset_of_mem hs
    · obtain ⟨q, hq, hxq⟩ := ih hx
      exact ⟨q, List.mem_cons_of_mem _ hq, hxq⟩

end BisayaPlus
