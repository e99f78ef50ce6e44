import BisayaPlus.Proofs.Passing.Expression

/-!
The readers of simple statements and of the headers of loops pass their checks and move on. Two of
them take a token without asking for the end of the source first: a token taken twice for a type is
followed by a name, and one taken twice for an initial value is the equal sign, which is no value.
-/

namespace BisayaPlus.Cursor

open Parse

variable {α : Type} {tokens : List Token} {pos : Nat}

theorem passes_sign (h : Inside tokens pos) :
    Passes tokens pos sign (MovesIfSome tokens pos) :=
  passes_acceptElse _ _ h (passes_acceptElse _ _ h (.pure ⟨h, rfl⟩))

/-- At the end of the source the token in front of it is taken, but behind an equal sign that is no
literal. -/
theorem passes_initialValue {equal : Token} (h : Inside tokens pos) (hpos : 0 < pos)
    (hequal : tokens[pos - 1]? = some equal) (hk : equal.kind = .symbol .equal) :
    Passes tokens pos initialValue (Beyond tokens pos) := by
  refine .forward ((passes_sign h).bind ?_)
  rintro factor pos' ⟨hinside, hsign⟩
  have hle : pos ≤ pos' ∧ (factor.isSome → pos < pos') := by
    cases factor with
    | some factor => exact ⟨Nat.le_of_lt hsign, fun _ => hsign⟩
    | none => exact ⟨Nat.le_of_eq (Eq.symm hsign), fun hsome => (nomatch hsome)⟩
  refine (passes_advance hinside (by omega)).bind fun t n hn => ?_
  have hend : Inside tokens n ∧ (pos < n ∨ signedLiteral? factor t = none) := by
    rcases hn with ⟨hend, hlt⟩ | ⟨hend, rfl, ht⟩
    · exact ⟨hend, .inl (by omega)⟩
    cases factor with
    | some factor => exact ⟨hend, .inl (hle.2 rfl)⟩
    | none =>
      obtain rfl : n = pos := hsign
      obtain rfl : equal = t := Option.some.inj (hequal.symm.trans ht)
      exact ⟨hend, .inr (by simp [signedLiteral?, literal?, hk])⟩
  cases hvalue : signedLiteral? factor t with
  | some value => exact .except fun _ => ⟨hend.1, hend.2.resolve_right (by simp [hvalue])⟩
  | none => exact .throw _

theorem passes_initializer (h : Inside tokens pos) :
    Passes tokens pos initializer (NotBefore tokens pos) := by
  refine (passes_accept _ h).bind ?_
  rintro b pos' ⟨hinside, hpos⟩
  cases b with
  | true =>
    obtain ⟨rfl, equal, hequal, hk⟩ := hpos
    refine (passes_initialValue hinside (Nat.succ_pos pos) hequal hk).bind
      fun v n ⟨hv, hlt⟩ => .pure ⟨hv, by omega⟩
  | false => exact .pure ⟨hinside, Nat.le_of_eq (Eq.symm hpos)⟩

theorem passes_declarator (type : DataType) (h : Inside tokens pos) :
    Passes tokens pos (declarator · type) (Beyond tokens pos) := by
  refine (passes_consume _ _ h).bind ?_
  rintro name pos' ⟨hname, hlt⟩
  refine (passes_initializer hname).bind ?_
  rintro initial n ⟨hinitial, hle⟩
  exact (passes_previous hinitial.within (by omega)).stay fun last _ => .pure ⟨hinitial, by omega⟩

/-- A list of items passes its checks if its items do. -/
theorem passes_list {separator : Symbol} {item : Steps → Nat → Cursor α}
    {list : Steps → Nat → Cursor (List α)} (hzero : ∀ k, list k 0 = spent)
    (hlist : ∀ k budget, list k (budget + 1) = do
      let first ← item k budget
      if ← accept k (.symbol separator) then
        return first :: (← list k budget)
      else
        return [first])
    (hitem : ∀ pos budget, Inside tokens pos →
      Passes tokens pos (item · budget) (Beyond tokens pos))
    (h : Inside tokens pos) (budget : Nat) :
    Passes tokens pos (list · budget) (Beyond tokens pos) := by
  induction budget generalizing pos with
  | zero =>
    simp only [hzero]
    exact .spent
  | succ budget ih =>
    simp only [hlist]
    refine (hitem pos budget h).bind ?_
    rintro first pos' ⟨hfirst, hlt⟩
    refine (passes_accept _ hfirst).bind ?_
    rintro b n ⟨hinside, hn⟩
    cases b with
    | true =>
      obtain ⟨rfl, -⟩ := hn
      exact (ih hinside).bind fun others k ⟨hothers, hk⟩ => .pure ⟨hothers, by omega⟩
    | false =>
      obtain rfl : n = pos' := hn
      exact .pure ⟨hinside, hlt⟩

theorem passes_declarators (single : Bool) (type : DataType) (h : Inside tokens pos)
    (budget : Nat) :
    Passes tokens pos (declarators · single type budget) (Beyond tokens pos) := by
  cases single with
  | true =>
    cases budget with
    | zero =>
      simp only [declarators]
      exact .spent
    | succ budget =>
      simp only [declarators]
      exact (passes_declarator type h).bind fun first _ hfirst => .pure hfirst
  | false =>
    have hread := fun k => declarators.eq_2 k false type
    simp only [Bool.false_eq_true, if_false] at hread
    exact passes_list (fun _ => rfl) hread (fun _ _ h => passes_declarator type h) h budget

/-- A declaration passes all checks, with its keyword behind the cursor. -/
theorem passes_declaration (single : Bool) (h : Inside tokens pos) (hpos : 0 < pos)
    (budget : Nat) :
    Passes tokens pos (declaration · single budget) (Beyond tokens pos) := by
  refine .forward ((passes_previous h.within hpos).stay fun start _ => ?_)
  refine (passes_advance h hpos).bind fun t n hn => ?_
  have hinside : Inside tokens n ∧ pos ≤ n := by
    rcases hn with ⟨hinside, hlt⟩ | ⟨hinside, hstay, -⟩
    · exact ⟨hinside, Nat.le_of_lt hlt⟩
    · exact ⟨hinside, Nat.le_of_eq hstay.symm⟩
  cases DataType.ofKind? t.kind with
  | none => exact .throw _
  | some type =>
    -- Also if the cursor did not move over the type, it moves over a name.
    refine (passes_declarators single type hinside.1 budget).bind ?_
    rintro ds k ⟨hds, hlt⟩
    exact (passes_previous hds.within (by omega)).stay fun last _ => .pure ⟨hds, by omega⟩

/-- Looking ahead for further targets passes all checks, as the end of the source is no name. -/
theorem passes_furtherTargets (h : Inside tokens pos) (budget : Nat) :
    Passes tokens pos (furtherTargets · budget) (NotBefore tokens pos) := by
  induction budget generalizing pos with
  | zero =>
    simp only [furtherTargets]
    exact .spent
  | succ budget ih =>
    simp only [furtherTargets]
    refine (passes_atNameBefore h).stay fun b hb => ?_
    cases b with
    | false => exact .pure ⟨h, Nat.le_refl _⟩
    | true =>
      obtain ⟨t, u, ht, hkt, hu, hku⟩ := hb rfl
      refine (passes_advance_of_ne h ht hkt).bind ?_
      rintro name n ⟨_, hn, hname⟩
      subst hn
      refine (passes_advance_of_ne hname hu hku).bind ?_
      rintro equal m ⟨_, hm, hequal⟩
      refine (ih hequal).bind fun more k ⟨hmore, hle⟩ => .pure ⟨hmore, ?_⟩
      omega

theorem passes_assignment (h : Inside tokens pos) (budget : Nat) :
    Passes tokens pos (assignment · budget) (Beyond tokens pos) := by
  refine .forward ((passes_consume _ _ h).bind ?_)
  rintro first n ⟨hfirst, hn⟩
  refine (passes_consume _ _ hfirst).bind ?_
  rintro equal m ⟨hequal, hm⟩
  refine (passes_furtherTargets hequal budget).bind ?_
  rintro more k ⟨hmore, hk⟩
  refine (passes_expression hmore budget).bind ?_
  rintro value j ⟨hvalue, hj⟩
  exact .pure ⟨hvalue, by omega⟩

theorem passes_output (h : Inside tokens pos) (hpos : 0 < pos) (budget : Nat) :
    Passes tokens pos (output · budget) (Beyond tokens pos) := by
  refine (passes_previous h.within hpos).stay fun start _ => ?_
  refine (passes_consume _ _ h).bind ?_
  rintro colon m ⟨hcolon, hm⟩
  have hvalues : Passes tokens m (outputValues · budget) (Beyond tokens m) :=
    passes_list (fun _ => rfl) outputValues.eq_2 (fun _ budget h => passes_expression h budget)
      hcolon budget
  refine hvalues.bind ?_
  rintro values k ⟨hends, hk⟩
  exact (passes_previous hends.within (by omega)).stay fun last _ => .pure ⟨hends, by omega⟩

theorem passes_inputTargets (h : Inside tokens pos) (budget : Nat) :
    Passes tokens pos (inputTargets · budget) (Beyond tokens pos) := by
  have hread : ∀ k budget, inputTargets k (budget + 1) = do
      let first ← (do return (← consume k .identifier .inputName).lexeme)
      if ← accept k (.symbol .comma) then
        return first :: (← inputTargets k budget)
      else
        return [first] := by
    intro k budget
    rw [bind_assoc]
    exact inputTargets.eq_2 k budget
  exact passes_list (fun _ => rfl) hread
    (fun _ _ h => (passes_consume _ _ h).bind fun _ _ hname => .pure hname) h budget

theorem passes_input (h : Inside tokens pos) (hpos : 0 < pos) (budget : Nat) :
    Passes tokens pos (input · budget) (Beyond tokens pos) := by
  refine (passes_previous h.within hpos).stay fun start _ => ?_
  refine (passes_consume _ _ h).bind ?_
  rintro colon m ⟨hcolon, hm⟩
  refine (passes_inputTargets hcolon budget).bind ?_
  rintro targets k ⟨hends, hk⟩
  exact (passes_previous hends.within (by omega)).stay fun last _ => .pure ⟨hends, by omega⟩

theorem passes_loopIncrement (h : Inside tokens pos) (budget : Nat) :
    Passes tokens pos (loopIncrement · budget) (Beyond tokens pos) := by
  refine (passes_atNameBefore h).stay fun b hb => ?_
  cases b with
  | false => exact passes_assignment h budget
  | true =>
    obtain ⟨t, u, ht, hkt, hu, hku⟩ := hb rfl
    refine (passes_advance_of_ne h ht hkt).bind ?_
    rintro name n ⟨_, hn, hname⟩
    subst hn
    refine (passes_advance_of_ne hname hu hku).bind ?_
    rintro operator m ⟨_, hm, hoperator⟩
    exact .pure ⟨hoperator, by omega⟩

theorem passes_loopInitializer (h : Inside tokens pos) (budget : Nat) :
    Passes tokens pos (loopInitializer · budget) (Beyond tokens pos) := by
  refine (passes_accept _ h).bind ?_
  rintro b pos' ⟨hinside, hpos⟩
  cases b with
  | true =>
    obtain ⟨rfl, -⟩ := hpos
    exact (passes_declaration true hinside (Nat.succ_pos pos) budget).mono
      fun _ _ ⟨hdeclaration, hlt⟩ => ⟨hdeclaration, by omega⟩
  | false =>
    obtain rfl : pos' = pos := hpos
    refine (passes_check _ h.within).stay fun b _ => ?_
    cases b with
    | true => exact (passes_assignment h budget).bind fun a _ ha => .pure ha
    | false => exact (passes_peek h.within).stay fun _ _ => .throw _

/-- The clauses of a loop pass all checks. -/
theorem passes_loopHeader (h : Inside tokens pos) (budget : Nat) :
    Passes tokens pos (loopHeader · budget) (Beyond tokens pos) := by
  refine (passes_consume _ _ h).bind ?_
  rintro opening i ⟨hopening, hi⟩
  refine (passes_loopInitializer hopening budget).bind ?_
  rintro initializer j ⟨hinitializer, hj⟩
  refine (passes_consume _ _ hinitializer).bind ?_
  rintro comma k ⟨hcomma, hk⟩
  refine (passes_expression hcomma budget).bind ?_
  rintro condition m ⟨hcondition, hm⟩
  refine (passes_consume _ _ hcondition).bind ?_
  rintro comma' n ⟨hcomma', hn⟩
  refine (passes_loopIncrement hcomma' budget).bind ?_
  rintro increment p ⟨hincrement, hp⟩
  refine (passes_consume _ _ hincrement).bind ?_
  rintro close q ⟨hclose, hq⟩
  exact .pure ⟨hclose, by omega⟩

end BisayaPlus.Cursor
