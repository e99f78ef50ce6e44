import BisayaPlus.Proofs.History

/-!
Statements with several names. A declaration and an assignment take their names in order, and one
that fails keeps exactly what it did before the name at which it failed. A declarator is checked for
the type of its value first and for its name then, also against the declarators before it.
-/

namespace BisayaPlus

/-- A value that a variable of the type may start with, and the value that the variable then has.
A truth value may be given by its word. -/
inductive DataType.Fits : DataType → Value → Value → Prop
  | whole {negative : Bool} {units : Nat} (h : Number.Representable units)
      (hwhole : Number.one ∣ units) :
      Fits .numero (.number (.finite negative units h)) (.number (.finite negative units h))
  | number (n : Number) : Fits .tipik (.number n) (.number n)
  | text (s : String) : Fits .letra (.text s) (.text s)
  | character (c : Char) : Fits .letra (.character c) (.character c)
  | boolean (b : Bool) : Fits .tinuod (.boolean b) (.boolean b)
  | trueWord : Fits .tinuod (.text "OO") (.boolean true)
  | falseWord : Fits .tinuod (.text "DILI") (.boolean false)

namespace Declarator

/-- The value that a declarator gives to its name: what its type makes of the initial value, or the
zero value of the type. -/
inductive Starts (type : DataType) (d : Declarator) : Value → Prop
  | given {v w : Value} (h : d.initializer = some v) (hfits : type.Fits v w) : Starts type d w
  | zero (h : d.initializer = none) : Starts type d type.zeroValue

inductive Fails (type : DataType) (s : Store) (before : List Declarator) (d : Declarator) :
    Fault → Prop
  | unfit {v : Value} (h : d.initializer = some v) (hunfit : ∀ w, ¬type.Fits v w) :
      Fails type s before d (.typing (.initializer type d.name v))
  | taken {v : Value} (h : d.Starts type v)
      (htaken : s.contains d.name = true ∨ d.name ∈ before.map (·.name)) :
      Fails type s before d (.naming (.alreadyDeclared d.name))

end Declarator

namespace Store

/-- All declarators of a statement can be added to a store. -/
structure Accepts (s : Store) (type : DataType) (ds : List Declarator) : Prop where
  fits : ∀ d ∈ ds, ∃ v, d.Starts type v
  distinct : (ds.map (·.name)).Nodup
  undeclared : ∀ d ∈ ds, s.contains d.name = false

/-- One store is another with the names of some declarators and their values. -/
structure Extends (s : Store) (type : DataType) (ds : List Declarator) (t : Store) : Prop where
  added : ∀ d ∈ ds, ∃ v, d.Starts type v ∧ t.get? d.name = some v
  other : ∀ x, x ∉ ds.map (·.name) → t.get? x = s.get? x

/-- One store is another with some values written to their names in order, so that the last value
of a name stays. -/
structure Written (s : Store) (bs : List (String × Value)) (t : Store) : Prop where
  last : ∀ before x v after, bs = before ++ (x, v) :: after → x ∉ after.map Prod.fst →
    t.get? x = some v
  other : ∀ x, x ∉ bs.map Prod.fst → t.get? x = s.get? x

structure Sets (s : Store) (names : List String) (v : Value) (t : Store) : Prop where
  named : ∀ x ∈ names, t.get? x = some v
  other : ∀ x, x ∉ names → t.get? x = s.get? x

end Store

namespace DataType

variable {type : DataType} {v w : Value}

theorem Fits.of_toBoolean {b : Bool} (h : v.toBoolean = .ok b) : Fits .tinuod v (.boolean b) := by
  cases v with
  | boolean c =>
    cases h
    exact .boolean b
  | text s =>
    by_cases htrue : s = Value.trueWord
    · have hb : (Value.text s).toBoolean = .ok true := if_pos htrue
      cases hb.symm.trans h
      exact htrue ▸ .trueWord
    · by_cases hfalse : s = Value.falseWord
      · have hb : (Value.text s).toBoolean = .ok false := (if_neg htrue).trans (if_pos hfalse)
        cases hb.symm.trans h
        exact hfalse ▸ .falseWord
      · have hb : (Value.text s).toBoolean = .error ⟨.boolean, .text s⟩ :=
          (if_neg htrue).trans (if_neg hfalse)
        cases hb.symm.trans h
  | number n => cases h
  | character c => cases h

theorem Fits.of_isWhole {n : Number} (h : n.isWhole = true) :
    Fits .numero (.number n) (.number n) := by
  cases n with
  | finite negative units hr => exact .whole hr (Nat.dvd_of_mod_eq_zero (beq_iff_eq.1 h))
  | infinite negative => cases h
  | nan => cases h

/-- A type takes a value that fits it, and refuses any other with the one fault. -/
theorem initial_cases (type : DataType) (name : String) (v : Value) :
    (∃ w, type.Fits v w ∧ type.initial name v = .ok w) ∨
      type.initial name v = .error (.initializer type name v) := by
  fun_cases DataType.initial type name v with
  | case1 n h => exact .inl ⟨_, .of_isWhole h, rfl⟩
  | case2 => exact .inr rfl
  | case3 n => exact .inl ⟨_, .number n, rfl⟩
  | case4 s => exact .inl ⟨_, .text s, rfl⟩
  | case5 c => exact .inl ⟨_, .character c, rfl⟩
  | case6 v b h unfit =>
    rw [h]
    exact .inl ⟨_, .of_toBoolean h, rfl⟩
  | case7 v mismatch h unfit =>
    rw [h]
    exact .inr rfl
  | case8 => exact .inr rfl

theorem Fits.initial_eq (h : type.Fits v w) (name : String) : type.initial name v = .ok w := by
  cases h with
  | whole hr hwhole =>
    exact if_pos (beq_iff_eq.2 (Nat.mod_eq_zero_of_dvd hwhole))
  | number n => rfl
  | text s => rfl
  | character c => rfl
  | boolean b => rfl
  | trueWord => rfl
  | falseWord => rfl

end DataType

namespace Declarator

variable {type : DataType} {d : Declarator} {v : Value}

/-- A declarator declares its name with the value that it starts with. -/
theorem Starts.exec_eq (h : d.Starts type v) (m : Machine) :
    d.exec type m = Action.onStore (·.declare d.name v) d.mark m := by
  cases h with
  | given h hfits =>
    rw [exec, h]
    refine Action.bind_apply_of_ok ?_
    dsimp only [Action.ofStore]
    rw [hfits.initial_eq]
    rfl
  | zero h =>
    have hzero : Action.ofStore (fun _ => (Except.ok type.zeroValue : Except Diagnostic Value)) m =
        .ok type.zeroValue m := rfl
    rw [exec, h]
    exact Action.bind_apply_of_ok hzero

/-- A declarator has a value to start with, or an initial value that does not fit. -/
theorem starts_or_unfit (type : DataType) (d : Declarator) (m : Machine) :
    (∃ v, d.Starts type v) ∨ ∃ w, d.initializer = some w ∧ (∀ v, ¬type.Fits w v) ∧
      d.exec type m = .error (.fault ⟨.typing (.initializer type d.name w), d.mark⟩) m := by
  cases hinit : d.initializer with
  | none => exact .inl ⟨_, .zero hinit⟩
  | some w =>
    rcases type.initial_cases d.name w with ⟨v, hfits, -⟩ | hunfit
    · exact .inl ⟨v, .given hinit hfits⟩
    · refine .inr ⟨w, rfl, fun v hfits => ?_, ?_⟩
      · rw [hfits.initial_eq] at hunfit
        cases hunfit
      · rw [exec, hinit]
        refine Action.bind_apply_of_error ?_
        dsimp only [Action.ofStore]
        rw [hunfit]
        rfl

/-- What a declarator does on a store. The value is looked at before the name. -/
theorem exec_outcome (type : DataType) (d : Declarator) (m : Machine) :
    (∃ v t, d.Starts type v ∧ m.store.declare d.name v = .ok t ∧
      d.exec type m = .ok () { m with store := t }) ∨
    ∃ fault, d.Fails type m.store [] fault ∧
      d.exec type m = .error (.fault ⟨fault, d.mark⟩) m := by
  rcases starts_or_unfit type d m with ⟨v, hv⟩ | ⟨w, hinit, hunfit, hrun⟩
  · rw [hv.exec_eq, Action.onStore]
    cases hc : m.store.contains d.name with
    | false =>
      obtain ⟨t, ht⟩ := Store.exists_declare hc v
      rw [ht]
      exact .inl ⟨v, t, hv, ht, rfl⟩
    | true =>
      rw [Store.declare_of_contains hc]
      exact .inr ⟨_, .taken hv (.inl hc), rfl⟩
  · exact .inr ⟨_, .unfit hinit hunfit, hrun⟩

end Declarator

namespace Store

variable {s s' t : Store} {type : DataType} {d : Declarator} {ds : List Declarator} {x : String}
  {v : Value}

theorem Accepts.nil (s : Store) (type : DataType) : s.Accepts type [] where
  fits _ h := nomatch h
  distinct := List.nodup_nil
  undeclared _ h := nomatch h

theorem Extends.refl (s : Store) (type : DataType) : s.Extends type [] s where
  added _ h := nomatch h
  other _ _ := rfl

/-- No declarator of an accepted list can have a name that is declared before them. -/
theorem Accepts.cons (hv : d.Starts type v) (hd : s.declare d.name v = .ok s')
    (h : s'.Accepts type ds) : s.Accepts type (d :: ds) where
  fits := List.forall_mem_cons.2 ⟨⟨v, hv⟩, h.fits⟩
  distinct := by
    rw [List.map_cons, List.nodup_cons]
    refine ⟨fun hmem => ?_, h.distinct⟩
    obtain ⟨e, he, hname⟩ := List.mem_map.1 hmem
    have hthere := (contains_of_declare hd e.name).2 (.inr hname)
    rw [h.undeclared e he] at hthere
    cases hthere
  undeclared := by
    refine List.forall_mem_cons.2 ⟨contains_eq_false_of_declare hd, fun e he => ?_⟩
    by_contra hc
    have hthere := (contains_of_declare hd e.name).2 (.inl (by simpa using hc))
    rw [h.undeclared e he] at hthere
    cases hthere

/-- Names are added in the order of their declarators. -/
theorem Extends.cons (hv : d.Starts type v) (hd : s.declare d.name v = .ok s')
    (hds : s'.Accepts type ds) (h : s'.Extends type ds t) : s.Extends type (d :: ds) t where
  added := by
    refine List.forall_mem_cons.2 ⟨⟨v, hv, ?_⟩, h.added⟩
    have hdistinct := (Accepts.cons hv hd hds).distinct
    have hnot : d.name ∉ ds.map (·.name) := (List.nodup_cons.1 hdistinct).1
    rw [h.other _ hnot, get?_of_declare hd, if_pos rfl]
  other y hy := by
    rw [List.map_cons, List.mem_cons, not_or] at hy
    rw [h.other y hy.2, get?_of_declare hd, if_neg hy.1]

theorem Written.refl (s : Store) : s.Written [] s where
  last before x v after h := by simp at h
  other _ _ := rfl

theorem Written.cons (hs : s.assign x v = .ok s') {bs : List (String × Value)}
    (h : s'.Written bs t) : s.Written ((x, v) :: bs) t := by
  have hget : ∀ y, s'.get? y = if y = x then some v else s.get? y := by
    intro y
    unfold assign at hs
    split at hs
    · rename_i hc
      cases hs
      rw [contains_eq_isSome_get?] at hc
      obtain ⟨w, hw⟩ := Option.isSome_iff_exists.1 hc
      rw [get?_update, hw]
      rfl
    · cases hs
  constructor
  · intro before y w after heq hy
    -- the first pair counts only if its name does not come again
    cases before with
    | nil =>
      obtain ⟨hb, hbs⟩ := List.cons.inj heq
      obtain ⟨rfl, rfl⟩ := Prod.mk.inj hb
      rw [h.other x (hbs ▸ hy), hget, if_pos rfl]
    | cons b before =>
      cases heq
      exact h.last before y w after rfl hy
  · intro y hy
    rw [List.map_cons, List.mem_cons, not_or] at hy
    rw [h.other y hy.2, hget, if_neg hy.1]

/-- A name in a list of pairs occurs in it for the last time. -/
theorem exists_last {bs : List (String × Value)} (h : x ∈ bs.map Prod.fst) :
    ∃ before v after, bs = before ++ (x, v) :: after ∧ x ∉ after.map Prod.fst := by
  induction bs with
  | nil => cases h
  | cons b bs ih =>
    by_cases hlater : x ∈ bs.map Prod.fst
    · obtain ⟨before, v, after, rfl, hafter⟩ := ih hlater
      exact ⟨b :: before, v, after, rfl, hafter⟩
    · obtain rfl : x = b.1 := (List.mem_cons.1 h).resolve_right hlater
      exact ⟨[], b.2, bs, rfl, hlater⟩

/-- If one value is written to names in order, each of them has it. -/
theorem Written.sets {names : List String} (h : s.Written (names.map (·, v)) t) :
    s.Sets names v t := by
  have hnames : (names.map (·, v)).map Prod.fst = names := by
    rw [List.map_map]
    exact List.map_id names
  constructor
  · intro x hx
    obtain ⟨before, w, after, heq, hafter⟩ := exists_last (hnames.symm ▸ hx)
    have hmem : (x, w) ∈ names.map (·, v) := heq ▸ List.mem_append_right _ List.mem_cons_self
    obtain ⟨y, -, hy⟩ := List.mem_map.1 hmem
    obtain ⟨-, rfl⟩ := Prod.mk.inj hy
    exact h.last before x v after heq hafter
  · intro x hx
    exact h.other x (hnames.symm ▸ hx)

end Store

namespace Declarator

variable {type : DataType} {d e : Declarator} {before : List Declarator} {s s' : Store} {v : Value}
  {fault : Fault}

/-- A name that is taken behind a declarator is taken behind the same one in the statement. -/
theorem Fails.cons (hd : s.declare d.name v = .ok s') (h : e.Fails type s' before fault) :
    e.Fails type s (d :: before) fault := by
  cases h with
  | unfit h hunfit => exact .unfit h hunfit
  | taken hv htaken =>
    refine .taken hv ?_
    rw [Store.contains_of_declare hd] at htaken
    rw [List.map_cons, List.mem_cons]
    exact or_assoc.1 htaken

/-- A declarator that fails is the first one that the store does not accept. -/
theorem Fails.not_accepts (h : d.Fails type s before fault) {after : List Declarator} :
    ¬s.Accepts type (before ++ d :: after) := by
  intro hall
  have hmem : d ∈ before ++ d :: after := List.mem_append_right _ List.mem_cons_self
  cases h with
  | unfit hinit hunfit =>
    obtain ⟨v, hv⟩ := hall.fits d hmem
    cases hv with
    | given hinit' hfits =>
      cases hinit.symm.trans hinit'
      exact hunfit _ hfits
    | zero hinit' => cases hinit.symm.trans hinit'
  | taken hv htaken =>
    rcases htaken with hc | hname
    · rw [hall.undeclared d hmem] at hc
      cases hc
    · have hdistinct := hall.distinct
      rw [List.map_append, List.nodup_append] at hdistinct
      exact hdistinct.2.2 _ hname _ (List.mem_map_of_mem List.mem_cons_self) rfl

/-- A declaration adds all its names, or it stops at the first declarator that fails and keeps the
names before it. -/
theorem forM_exec_outcome (type : DataType) (ds : List Declarator) (m : Machine) :
    (∃ t, m.store.Accepts type ds ∧ m.store.Extends type ds t ∧
      ds.forM (·.exec type) m = .ok () { m with store := t }) ∨
    ∃ before d after fault t, ds = before ++ d :: after ∧ m.store.Accepts type before ∧
      m.store.Extends type before t ∧ d.Fails type m.store before fault ∧
      ds.forM (·.exec type) m = .error (.fault ⟨fault, d.mark⟩) { m with store := t } := by
  -- the rest of the statement runs on the store that has the first name already
  induction ds generalizing m with
  | nil => exact .inl ⟨m.store, .nil _ _, .refl _ _, rfl⟩
  | cons d ds ih =>
    rw [List.forM_eq_forM, List.forM_cons]
    rcases d.exec_outcome type m with ⟨v, s, hv, hs, hrun⟩ | ⟨fault, hfails, hrun⟩
    · rw [Action.bind_apply_of_ok hrun]
      rcases ih { m with store := s } with ⟨t, hok, ht, hrest⟩ |
        ⟨before, e, after, fault, t, rfl, hok, ht, hfails, hrest⟩
      · exact .inl ⟨t, .cons hv hs hok, .cons hv hs hok ht, hrest⟩
      · exact .inr ⟨d :: before, e, after, fault, t, rfl, .cons hv hs hok, .cons hv hs hok ht,
          hfails.cons hs, hrest⟩
    · rw [Action.bind_apply_of_error hrun]
      exact .inr ⟨[], d, ds, fault, m.store, rfl, .nil _ _, .refl _ _, hfails, rfl⟩

end Declarator

namespace Action

def assignEach (bs : List (String × Value)) (mark : Mark) : Action Unit :=
  bs.forM fun b => onStore (·.assign b.1 b.2) mark

theorem assignEach_cons (b : String × Value) (bs : List (String × Value)) (mark : Mark) :
    assignEach (b :: bs) mark =
      onStore (·.assign b.1 b.2) mark >>= fun _ => assignEach bs mark := by
  unfold assignEach
  rw [List.forM_eq_forM, List.forM_cons]

/-- All values are written, or those before the first name that is not declared. -/
theorem assignEach_outcome (bs : List (String × Value)) (mark : Mark) (m : Machine) :
    (∃ t, (∀ b ∈ bs, m.store.contains b.1 = true) ∧ m.store.Written bs t ∧
      assignEach bs mark m = .ok () { m with store := t }) ∨
    ∃ before b after t, bs = before ++ b :: after ∧
      (∀ b ∈ before, m.store.contains b.1 = true) ∧ m.store.contains b.1 = false ∧
      m.store.Written before t ∧
      assignEach bs mark m =
        .error (.fault ⟨.naming (.undeclared b.1), mark⟩) { m with store := t } := by
  induction bs generalizing m with
  | nil => exact .inl ⟨m.store, List.forall_mem_nil _, .refl _, rfl⟩
  | cons b bs ih =>
    obtain ⟨x, v⟩ := b
    rw [assignEach_cons]
    cases hc : m.store.contains x with
    | true =>
      have hs : m.store.assign x v = .ok (m.store.update x v) := if_pos hc
      have hrun : onStore (·.assign x v) mark m =
          .ok () { m with store := m.store.update x v } := by
        rw [onStore, hs]
      have hsame := Store.contains_of_assign hs
      rw [bind_apply_of_ok hrun]
      rcases ih { m with store := m.store.update x v } with ⟨t, hall, ht, hrest⟩ |
        ⟨before, b, after, t, rfl, hall, hb, ht, hrest⟩
      · simp only [hsame] at hall
        exact .inl ⟨t, List.forall_mem_cons.2 ⟨hc, hall⟩, .cons hs ht, hrest⟩
      · simp only [hsame] at hall hb
        exact .inr ⟨(x, v) :: before, b, after, t, rfl, List.forall_mem_cons.2 ⟨hc, hall⟩, hb,
          .cons hs ht, hrest⟩
    | false =>
      have hs : m.store.assign x v = .error (.undeclared x) := if_neg (Bool.eq_false_iff.1 hc)
      have hrun : onStore (·.assign x v) mark m =
          .error (.fault ⟨.naming (.undeclared x), mark⟩) m := by
        rw [onStore, hs]
      rw [bind_apply_of_error hrun]
      exact .inr ⟨[], (x, v), bs, m.store, rfl, List.forall_mem_nil _, hc, .refl _, rfl⟩

/-- An assignment to several names gives the value to one after another. -/
theorem assignAll_eq (names : List String) (v : Value) (mark : Mark) :
    assignAll names v mark = assignEach (names.map (·, v)) mark := by
  unfold assignAll assignEach
  rw [List.forM_eq_forM, List.forM_eq_forM, List.forM_map]

end Action

namespace Stmt

/-- A declaration runs its declarators in order. -/
theorem exec_declaration (type : DataType) (ds : List Declarator) (span : Span) (budget : Nat)
    (m : Machine) :
    (Stmt.declaration type ds span).exec budget m = ds.forM (·.exec type) m := by
  rw [exec]

/-- An assignment that cannot evaluate its expression leaves the machine alone. One that can writes
the value to all its targets, or to those before the first that is not declared. -/
theorem exec_assignment_outcome (a : Assignment) (budget : Nat) (m : Machine) :
    (∃ d, a.value.eval m.store = .error d ∧
      (Stmt.assignment a).exec budget m = .error (.fault d) m) ∨
    ∃ v, a.value.eval m.store = .ok v ∧
      ((∃ t, (∀ x ∈ a.targets, m.store.contains x = true) ∧ m.store.Sets a.targets v t ∧
        (Stmt.assignment a).exec budget m = .ok () { m with store := t }) ∨
      ∃ before x after t, a.targets = before ++ x :: after ∧
        (∀ y ∈ before, m.store.contains y = true) ∧ m.store.contains x = false ∧
        m.store.Sets before v t ∧
        (Stmt.assignment a).exec budget m =
          .error (.fault ⟨.naming (.undeclared x), a.mark⟩) { m with store := t }) := by
  rw [exec, Assignment.exec]
  cases heval : a.value.eval m.store with
  | error d =>
    have hrun : Action.ofStore a.value.eval m = .error (.fault d) m := by
      rw [Action.ofStore, heval]
    exact .inl ⟨d, rfl, Action.bind_apply_of_error hrun⟩
  | ok v =>
    have hrun : Action.ofStore a.value.eval m = .ok v m := by
      rw [Action.ofStore, heval]
    refine .inr ⟨v, rfl, ?_⟩
    rw [Action.bind_apply_of_ok hrun, Action.assignAll_eq]
    rcases Action.assignEach_outcome (a.targets.map (·, v)) a.mark m with ⟨t, hall, ht, hend⟩ |
      ⟨before, b, after, t, heq, hall, hb, ht, hend⟩
    · exact .inl ⟨t, fun x hx => hall (x, v) (List.mem_map_of_mem hx), ht.sets, hend⟩
    · obtain ⟨before, rest, htargets, rfl, hrest⟩ := List.map_eq_append_iff.1 heq
      obtain ⟨x, after, rfl, rfl, -⟩ := List.map_eq_cons_iff.1 hrest
      exact .inr ⟨before, x, after, t, htargets, fun y hy => hall (y, v) (List.mem_map_of_mem hy),
        hb, ht.sets, hend⟩

/-- A statement with several names does its part for them in order and keeps what it did before the
first name at which it fails. -/
theorem exec_severalNames (budget : Nat) (m : Machine) :
    (∀ type ds span,
      (m.store.Accepts type ds ↔
        ∃ m', (Stmt.declaration type ds span).exec budget m = .ok () m') ∧
      (m.store.Accepts type ds → ∃ t, m.store.Extends type ds t ∧
        (Stmt.declaration type ds span).exec budget m = .ok () { m with store := t }) ∧
      (¬m.store.Accepts type ds → ∃ before d after fault t, ds = before ++ d :: after ∧
        m.store.Accepts type before ∧ d.Fails type m.store before fault ∧
        m.store.Extends type before t ∧
        (Stmt.declaration type ds span).exec budget m =
          .error (.fault ⟨fault, d.mark⟩) { m with store := t })) ∧
    ∀ a : Assignment,
      (∀ d, a.value.eval m.store = .error d →
        (Stmt.assignment a).exec budget m = .error (.fault d) m) ∧
      ∀ v, a.value.eval m.store = .ok v →
        ((∀ x ∈ a.targets, m.store.contains x = true) → ∃ t, m.store.Sets a.targets v t ∧
          (Stmt.assignment a).exec budget m = .ok () { m with store := t }) ∧
        (¬(∀ x ∈ a.targets, m.store.contains x = true) → ∃ before x after t,
          a.targets = before ++ x :: after ∧ (∀ y ∈ before, m.store.contains y = true) ∧
          m.store.contains x = false ∧ m.store.Sets before v t ∧
          (Stmt.assignment a).exec budget m =
            .error (.fault ⟨.naming (.undeclared x), a.mark⟩) { m with store := t }) := by
  constructor
  · intro type ds span
    rw [exec_declaration]
    rcases Declarator.forM_exec_outcome type ds m with ⟨t, hok, ht, hend⟩ |
      ⟨before, d, after, fault, t, rfl, hok, ht, hfails, hend⟩
    · exact ⟨⟨fun _ => ⟨_, hend⟩, fun _ => hok⟩, fun _ => ⟨t, ht, hend⟩,
        fun hnot => (hnot hok).elim⟩
    · have hnot : ¬m.store.Accepts type (before ++ d :: after) := hfails.not_accepts
      refine ⟨⟨fun hall => (hnot hall).elim, ?_⟩, fun hall => (hnot hall).elim, fun _ =>
        ⟨before, d, after, fault, t, rfl, hok, hfails, ht, hend⟩⟩
      rintro ⟨m', hm'⟩
      cases hend.symm.trans hm'
  · intro a
    rcases exec_assignment_outcome a budget m with ⟨d, heval, hend⟩ | ⟨v, heval, hend⟩
    · rw [heval]
      refine ⟨fun d' hd' => ?_, fun _ hv => (nomatch hv)⟩
      cases hd'
      exact hend
    · rw [heval]
      refine ⟨fun _ hd => (nomatch hd), fun v' hv' => ?_⟩
      cases hv'
      rcases hend with ⟨t, hall, ht, hend⟩ | ⟨before, x, after, t, heq, hall, hx, ht, hend⟩
      · exact ⟨fun _ => ⟨t, ht, hend⟩, fun hnot => (hnot hall).elim⟩
      · refine ⟨fun hevery => ?_, fun _ => ⟨before, x, after, t, heq, hall, hx, ht, hend⟩⟩
        rw [hevery x (heq ▸ List.mem_append_right _ List.mem_cons_self)] at hx
        cases hx

/-- A name declared twice in one statement keeps its first value, and an assignment to a declared
and an undeclared name keeps the first one's new value. -/
theorem exec_severalNames_halfDone :
    let m : Machine := ⟨⟨[("x", .boolean false)], by decide⟩, .ofInput []⟩
    let mark : Mark := ⟨⟨0, 1⟩, 1⟩
    (∃ t, (Stmt.declaration .tinuod [⟨"a", some (.text "OO"), mark⟩, ⟨"a", none, mark⟩]
        ⟨0, 1⟩).exec 0 m =
      .error (.fault ⟨.naming (.alreadyDeclared "a"), mark⟩) { m with store := t } ∧
      t.get? "a" = some (.boolean true)) ∧
    ∃ t, (Stmt.assignment ⟨["x", "y"], .literal (.text "v") mark, mark⟩).exec 0 m =
      .error (.fault ⟨.naming (.undeclared "y"), mark⟩) { m with store := t } ∧
      t.get? "x" = some (.text "v") := by
  intro m mark
  obtain ⟨hdeclaration, hassignment⟩ := exec_severalNames 0 m
  constructor
  · have hnot : ¬m.store.Accepts .tinuod
        [⟨"a", some (.text "OO"), mark⟩, ⟨"a", none, mark⟩] := by
      intro h
      exact absurd h.distinct (by decide)
    obtain ⟨before, d, after, fault, t, heq, -, hfails, ht, hend⟩ :=
      (hdeclaration .tinuod _ ⟨0, 1⟩).2.2 hnot
    match before, heq with
    | [], heq =>
      obtain ⟨rfl, -⟩ := List.cons.inj heq
      cases hfails with
      | unfit h hunfit =>
        cases h
        exact absurd .trueWord (hunfit (.boolean true))
      | taken _ htaken => exact absurd htaken (by decide)
    | [e], heq =>
      obtain ⟨rfl, hrest⟩ := List.cons.inj heq
      obtain ⟨rfl, -⟩ := List.cons.inj hrest
      obtain ⟨v, hv, hget⟩ := ht.added _ List.mem_cons_self
      cases hfails with
      | unfit h hunfit => cases h
      | taken _ _ =>
        refine ⟨t, hend, hget.trans (congrArg some ?_)⟩
        cases hv with
        | given h hfits =>
          cases h
          have hword : DataType.initial .tinuod "a" (.text "OO") = .ok (.boolean true) := rfl
          exact Except.ok.inj ((hfits.initial_eq "a").symm.trans hword)
        | zero h => cases h
    | _ :: _ :: before, heq =>
      have hlength := congrArg List.length heq
      simp at hlength
  · have hnot : ¬∀ x ∈ ["x", "y"], m.store.contains x = true := by decide
    obtain ⟨before, x, after, t, heq, -, hx, ht, hend⟩ :=
      ((hassignment ⟨["x", "y"], .literal (.text "v") mark, mark⟩).2 (.text "v") rfl).2 hnot
    match before, heq with
    | [], heq =>
      obtain ⟨rfl, -⟩ := List.cons.inj heq
      exact absurd hx (by decide)
    | [z], heq =>
      obtain ⟨rfl, hrest⟩ := List.cons.inj heq
      obtain ⟨rfl, -⟩ := List.cons.inj hrest
      exact ⟨t, hend, ht.named "x" List.mem_cons_self⟩
    | _ :: _ :: before, heq =>
      have hlength := congrArg List.length heq
      simp at hlength

end Stmt

end BisayaPlus
