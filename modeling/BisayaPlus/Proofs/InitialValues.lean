import BisayaPlus.Proofs.InitialValueSite
import BisayaPlus.Proofs.MultipleNames

/-!
Initial values and assignments. If a program declares a name with a value, the value may as well be
assigned in a statement behind the declaration: the tokens are still a program, in which two
statements take the place of one, and where the one succeeds the two leave the same store. The
exception is a truth value that is given by its word, which an assignment leaves as a text.
-/

namespace BisayaPlus

open Token Grammar

/-- An expression that denotes a value has this value on each store. -/
theorem Expr.Denotes.eval_eq {e : Expr} {v : Value} (h : e.Denotes v) (s : Store) :
    e.eval s = .ok v := by
  cases h <;> rfl

theorem Expr.Denotes.of_unmarked {e e' : Expr} {v : Value} (h : e.Denotes v)
    (he : e'.unmarked = e.unmarked) : e'.Denotes v := by
  have hliteral {f : Expr} {w : Value} (hf : f.unmarked = .literal w .blank) :
      ∃ m, f = .literal w m := by
    cases f with
    | literal w' m =>
      cases hf
      exact ⟨m, rfl⟩
    | name | unary | binary => cases hf
  have hunary {f : Expr} {op : UnaryOp} {w : Value}
      (hf : f.unmarked = .unary op (.literal w .blank) .blank) :
      ∃ m m', f = .unary op (.literal w m) m' := by
    cases f with
    | unary op' g m' =>
      simp only [unmarked, Expr.unary.injEq] at hf
      obtain ⟨m, rfl⟩ := hliteral hf.2.1
      exact ⟨m, m', by rw [hf.1]⟩
    | literal | name | binary => cases hf
  cases h with
  | literal =>
    obtain ⟨m, rfl⟩ := hliteral he
    exact .literal _ m
  | negative n =>
    obtain ⟨m, m', rfl⟩ := hunary he
    exact .negative n m m'
  | positive n =>
    obtain ⟨m, m', rfl⟩ := hunary he
    exact .positive n m m'

theorem Stmt.unmarkedAll_eq_map (ss : List Stmt) : Stmt.unmarkedAll ss = ss.map Stmt.unmarked := by
  induction ss with
  | nil => rfl
  | cons s ss ih => rw [Stmt.unmarkedAll, ih, List.map_cons]

theorem Stmt.exists_of_unmarked_eq_declaration {s : Stmt} {type : DataType} {ds : List Declarator}
    {span : Span} (h : s.unmarked = .declaration type ds span) :
    ∃ ds' span', s = .declaration type ds' span' ∧ ds'.map Declarator.unmarked = ds := by
  cases s with
  | declaration type ds' span' =>
    cases h
    exact ⟨ds', span', rfl, rfl⟩
  | assignment | output | input | conditional | loop => cases h

theorem Stmt.exists_of_unmarked_eq_assignment {s : Stmt} {a : Assignment}
    (h : s.unmarked = .assignment a) : ∃ a', s = .assignment a' ∧ a'.unmarked = a := by
  cases s with
  | assignment a' =>
    cases h
    exact ⟨a', rfl, rfl⟩
  | declaration | output | input | conditional | loop => cases h

theorem Stmt.exec_declaration_singleton (budget : Nat) (type : DataType) (d : Declarator)
    (span : Span) : (Stmt.declaration type [d] span).exec budget = d.exec type := by
  rw [Stmt.exec, List.forM_eq_forM, List.forM_cons, List.forM_nil, bind_pure_unit]

/-- A new name that is given another value has it as if it were declared with it. -/
theorem Store.declare_update {s t : Store} {x : String} {v : Value} (h : s.declare x v = .ok t)
    (w : Value) : s.declare x w = .ok (t.update x w) := by
  have hnew := Bool.eq_false_iff.1 (contains_eq_false_of_declare h)
  have hsame : s.bindings.map (fun b => if b.1 = x then (x, w) else b) = s.bindings := by
    rw [List.map_congr_left fun b hb => if_neg fun hx => ?_]
    · exact List.map_id s.bindings
    · exact hnew (List.contains_iff_mem.2 (List.mem_map.2 ⟨b, hb, hx⟩))
  rw [declare, dif_neg hnew] at h
  cases h
  rw [declare, dif_neg hnew]
  simp [update, hsame]

namespace Initialization

variable {i : Initialization} {v : Value} {s : Stmt} {ds : List Stmt}

/-- What the assignment leaves where the declaration with the value leaves a machine. They are the
same, but for a truth value that is given by its word and assigned as a text. -/
inductive Leaves (i : Initialization) (m : Machine) : Value → Machine → Prop
  | same {v : Value} (h : i.type = .tinuod → ∀ w, v ≠ .text w) : Leaves i m v m
  | word {w : String} {b : Bool} (ht : i.type = .tinuod) (hb : (Value.text w).toBoolean = .ok b)
      (hm : m.store.get? i.name = some (.boolean b)) :
      Leaves i m (.text w) { m with store := m.store.update i.name (.text w) }

/-- The two statements with other marks. -/
theorem Splits.exists_of_unmarkedAll (h : i.Splits v s ds) {ds' : List Stmt}
    (hds : Stmt.unmarkedAll ds' = Stmt.unmarkedAll ds) :
    ∃ m span e m', e.Denotes v ∧ ds' =
      [.declaration i.type [⟨i.name, none, m⟩] span, .assignment ⟨[i.name], e, m'⟩] := by
  obtain @⟨e, he, m, span⟩ := h
  rw [Stmt.unmarkedAll_eq_map, Stmt.unmarkedAll_eq_map] at hds
  obtain ⟨d, as, rfl, hd, has⟩ := List.map_eq_cons_iff.1 hds
  obtain ⟨a, us, rfl, ha, hus⟩ := List.map_eq_cons_iff.1 has
  obtain rfl := List.map_eq_nil_iff.1 hus
  obtain ⟨ds, span', rfl, hdeclarators⟩ := Stmt.exists_of_unmarked_eq_declaration hd
  obtain ⟨⟨name, initializer, m₁⟩, us, rfl, hname, hus⟩ := List.map_eq_cons_iff.1 hdeclarators
  obtain rfl := List.map_eq_nil_iff.1 hus
  obtain ⟨⟨targets, e', m₂⟩, rfl, hvalue⟩ := Stmt.exists_of_unmarked_eq_assignment ha
  simp only [Declarator.unmarked, Declarator.mk.injEq, and_true] at hname
  simp only [Assignment.unmarked, Assignment.mk.injEq, and_true] at hvalue
  obtain ⟨rfl, rfl⟩ := hname
  obtain ⟨rfl, he'⟩ := hvalue
  exact ⟨m₁, span', e', m₂, he.of_unmarked he', rfl⟩

/-- The two statements give the name its value as if it were declared with it. -/
theorem exec_declaration_assignment {t : Store} {m : Machine} {e : Expr}
    (ht : m.store.declare i.name v = .ok t) (he : e.Denotes v) (budget : Nat) (m₁ m₂ : Mark)
    (span : Span) :
    Stmt.execAll budget
      [.declaration i.type [⟨i.name, none, m₁⟩] span, .assignment ⟨[i.name], e, m₂⟩] m =
        .ok () { m with store := t } := by
  obtain ⟨t', ht'⟩ := Store.exists_declare (Store.contains_eq_false_of_declare ht) i.type.zeroValue
  have hdeclare : (Stmt.declaration i.type [⟨i.name, none, m₁⟩] span).exec budget m =
      .ok () { m with store := t' } := by
    have hzero : Declarator.Starts i.type ⟨i.name, none, m₁⟩ i.type.zeroValue := .zero rfl
    rw [Stmt.exec_declaration_singleton, hzero.exec_eq, Action.onStore]
    dsimp only
    rw [ht']
  have hassign : t'.assign i.name v = .ok t := by
    have hthere := (Store.contains_of_declare ht' i.name).2 (.inr rfl)
    rw [Store.assign, if_pos hthere, ← Store.declare_update ht', ht]
  have hvalue : Action.ofStore e.eval { m with store := t' } = .ok v { m with store := t' } := by
    rw [Action.ofStore, he.eval_eq]
  rw [Stmt.execAll, Action.bind_apply_of_ok hdeclare, Stmt.execAll, Stmt.execAll, bind_pure_unit,
    Stmt.exec, Assignment.exec, Action.bind_apply_of_ok hvalue, Action.assignAll,
    List.forM_eq_forM, List.forM_cons, List.forM_nil, bind_pure_unit, Action.onStore]
  dsimp only
  rw [hassign]

/-- To assign what the declaration gave changes nothing, but for a truth value given by its word. -/
theorem leaves_of_fits {w : Value} {t : Store} {m : Machine} (hfits : i.type.Fits v w)
    (ht : m.store.declare i.name w = .ok t) :
    i.Leaves { m with store := t } v { m with store := t.update i.name v } := by
  have hget : t.get? i.name = some w := by simpa using Store.get?_of_declare ht i.name
  have hsame (hw : w = v) : t.update i.name v = t := by
    have hagain := Store.declare_update ht w
    rw [ht, hw] at hagain
    exact (Except.ok.inj hagain).symm
  generalize htype : i.type = type at hfits
  cases hfits with
  | whole | number | text | character | boolean =>
    rw [hsame rfl]
    exact .same (by simp [htype])
  | trueWord => exact .word htype rfl hget
  | falseWord => exact .word htype rfl hget

/-- Where the declaration with the value succeeds, the one without it and the assignment do. -/
theorem Splits.exec (h : i.Splits v s ds) {ds' : List Stmt}
    (hds : Stmt.unmarkedAll ds' = Stmt.unmarkedAll ds) {budget : Nat} {m m' : Machine}
    (hs : s.exec budget m = .ok () m') :
    ∃ m'', Stmt.execAll budget ds' m = .ok () m'' ∧ i.Leaves m' v m'' := by
  obtain ⟨m₁, span', e', m₂, he', rfl⟩ := h.exists_of_unmarkedAll hds
  obtain @⟨e, he, m₀, span⟩ := h
  rw [Stmt.exec_declaration_singleton] at hs
  obtain ⟨w, t, hstarts, ht, hrun⟩ | ⟨fault, -, hrun⟩ :=
    Declarator.exec_outcome i.type ⟨i.name, some v, m₀⟩ m
  · rw [hrun] at hs
    cases hs
    have ht' := Store.declare_update ht v
    refine ⟨_, exec_declaration_assignment ht' he' budget m₁ m₂ span', ?_⟩
    obtain ⟨v', hv', hfits⟩ : ∃ v', some v = some v' ∧ i.type.Fits v' w := by
      cases hstarts with
      | given hv hfits => exact ⟨_, hv, hfits⟩
      | zero hv => cases hv
    cases hv'
    exact leaves_of_fits hfits ht
  · rw [hrun] at hs
    cases hs

end Initialization

namespace Program

open Initialization

/-- If a program declares a name with a value, its tokens with the value assigned behind the
declaration are a program as well, with two statements in the place of one. From any machine on
which the one succeeds, the two leave the same machine. -/
theorem exists_ofTokens_assigned {i : Initialization} {ts us : List Token}
    {before after : List (Token.Kind × String)} {p : Program} (h : ofTokens ts = .ok p)
    (hts : ts.map face = before ++ (i.declared ++ after))
    (hus : us.map face = before ++ (i.assigned ++ after))
    (hbefore : ∀ f ∈ before, f.1 ≠ .keyword .katapusan)
    (hcomma : after.head?.map Prod.fst ≠ some (.symbol .comma)) :
    ∃ (site : Site) (v : Value) (s : Stmt) (ds rest : List Stmt) (q : Program),
      i.Splits v s ds ∧ p.statements = site.fill (s :: rest) ∧ ofTokens us = .ok q ∧
      q.unmarked = Program.unmarked ⟨site.fill (ds ++ rest)⟩ ∧
      ∀ ds', Stmt.unmarkedAll ds' = Stmt.unmarkedAll ds → ∀ budget m m',
        s.exec budget m = .ok () m' →
          ∃ m'', Stmt.execAll budget ds' m = .ok () m'' ∧ i.Leaves m' v m'' := by
  obtain ⟨start, body, close, tail, last, rfl, hstart, hclose, hbody, hread⟩ :=
    ofTokens_eq_ok_iff.1 h
  have hss := statementsAt_of_statements hread
  -- the place of the edit lies in front of the closing word
  obtain ⟨inner, hinner, rfl⟩ : ∃ inner,
      (start :: body).map face = before ++ (i.declared ++ inner) ∧
      after = inner ++ (close :: tail).map face := by
    rw [← List.cons_append, List.map_append, ← List.append_assoc] at hts
    obtain ⟨inner, hinner, hafter⟩ := List.exists_of_append_cons_eq hts fun hmem =>
      (List.mem_append.1 hmem).elim (hbefore _ · hclose) (i.ne_katapusan_of_mem_declared _ · hclose)
    exact ⟨inner, hinner.trans (List.append_assoc _ _ _), hafter⟩
  rw [← List.append_assoc, ← List.append_assoc] at hus
  obtain ⟨us₁, us₂, rfl, hus₁, hus₂⟩ := List.map_eq_append_iff.1 hus
  obtain ⟨close', tail', rfl, hclose', -⟩ := List.map_eq_cons_iff.1 hus₂
  have hedit : Edit i true (start :: body) us₁ := by
    refine .ahead hinner (hus₁.trans (List.append_assoc _ _ _)) ?_
    cases inner with
    | nil => simp
    | cons f inner => exact hcomma
  obtain ⟨start', body', rfl, hk, -, hedit⟩ := hedit.uncons (by simp [hstart])
  obtain ⟨k, ss, rest', hend, hss', c⟩ := hss.yields (.inl rfl) hedit
  obtain ⟨rfl, rfl⟩ := hend.eq_nil
  have hbody' : ∀ t ∈ body', endsBody t = false := by
    intro u hu
    obtain ⟨t, ht, hf⟩ := hedit.exists_face_eq u hu
    have hkind : t.kind = u.kind := congrArg Prod.fst hf
    have hopen := hbody t ht
    rwa [endsBody, hkind] at hopen
  have hclose' : close'.kind = .keyword .katapusan := (congrArg Prod.fst hclose').trans hclose
  obtain ⟨q, hq, hu⟩ : ∃ q, ofTokens (start' :: (body' ++ close' :: tail')) = .ok q ∧
      q.unmarked = Program.unmarked ⟨ss⟩ :=
    exists_ofTokens_eq_ok (hk.trans hstart) hclose' hbody' hss'
  cases c with
  | once hparts =>
    obtain ⟨site, v, s, ds, rest, hsplits, hp, rfl⟩ := hparts
    exact ⟨site, v, s, ds, rest, q, hsplits, hp, hq, hu, fun ds' hds budget m m' hs =>
      hsplits.exec hds hs⟩

def startsFalse : Initialization :=
  ⟨.tinuod, "b", [(.boolean, "DILI")], .literal (by simp)⟩

def falseDeclared : List Token :=
  [⟨.keyword .sugod, "SUGOD", ⟨0, 5⟩, 1⟩, ⟨.keyword .mugna, "MUGNA", ⟨6, 11⟩, 1⟩,
    ⟨.keyword .tinuod, "TINUOD", ⟨12, 18⟩, 1⟩, ⟨.identifier, "b", ⟨19, 20⟩, 1⟩,
    ⟨.symbol .equal, "=", ⟨21, 22⟩, 1⟩, ⟨.boolean, "DILI", ⟨23, 27⟩, 1⟩,
    ⟨.identifier, "b", ⟨28, 29⟩, 2⟩, ⟨.symbol .equal, "=", ⟨30, 31⟩, 2⟩,
    ⟨.boolean, "OO", ⟨32, 34⟩, 2⟩, ⟨.keyword .katapusan, "KATAPUSAN", ⟨35, 44⟩, 2⟩,
    ⟨.sourceEnd, "", ⟨44, 44⟩, 2⟩]

def falseAssigned : List Token :=
  [⟨.keyword .sugod, "SUGOD", ⟨0, 5⟩, 1⟩, ⟨.keyword .mugna, "MUGNA", ⟨6, 11⟩, 1⟩,
    ⟨.keyword .tinuod, "TINUOD", ⟨12, 18⟩, 1⟩, ⟨.identifier, "b", ⟨19, 20⟩, 1⟩,
    ⟨.identifier, "b", ⟨21, 22⟩, 1⟩, ⟨.symbol .equal, "=", ⟨23, 24⟩, 1⟩,
    ⟨.boolean, "DILI", ⟨25, 29⟩, 1⟩, ⟨.identifier, "b", ⟨30, 31⟩, 2⟩,
    ⟨.symbol .equal, "=", ⟨32, 33⟩, 2⟩, ⟨.boolean, "OO", ⟨34, 36⟩, 2⟩,
    ⟨.keyword .katapusan, "KATAPUSAN", ⟨37, 46⟩, 2⟩, ⟨.sourceEnd, "", ⟨46, 46⟩, 2⟩]

/-- The word for false negates nothing in the assignment, since another assignment follows. -/
theorem exists_ofTokens_assigned_false :
    (∃ p, ofTokens falseDeclared = .ok p) ∧
      ∃ (v : Value) (s : Stmt) (ds : List Stmt) (q : Program), startsFalse.Splits v s ds ∧
        ofTokens falseAssigned = .ok q ∧ ∀ ds', Stmt.unmarkedAll ds' = Stmt.unmarkedAll ds →
          ∀ budget m m', s.exec budget m = .ok () m' →
            ∃ m'', Stmt.execAll budget ds' m = .ok () m'' ∧ startsFalse.Leaves m' v m'' := by
  have hp : ofTokens falseDeclared =
      .ok ⟨[.declaration .tinuod [⟨"b", some (.boolean false), ⟨⟨19, 27⟩, 1⟩⟩] ⟨6, 27⟩,
        .assignment ⟨["b"], .literal (.boolean true) ⟨⟨32, 34⟩, 2⟩, ⟨⟨28, 34⟩, 2⟩⟩]⟩ := by cbv
  have hts : falseDeclared.map face = [(.keyword .sugod, "SUGOD")] ++
      (startsFalse.declared ++ (falseDeclared.drop 6).map face) := rfl
  have hus : falseAssigned.map face = [(.keyword .sugod, "SUGOD")] ++
      (startsFalse.assigned ++ (falseDeclared.drop 6).map face) := rfl
  obtain ⟨site, v, s, ds, rest, q, hsplits, -, hq, -, hexec⟩ :=
    exists_ofTokens_assigned hp hts hus (by simp) (by decide)
  exact ⟨⟨_, hp⟩, v, s, ds, q, hsplits, hq, hexec⟩

end Program

end BisayaPlus
