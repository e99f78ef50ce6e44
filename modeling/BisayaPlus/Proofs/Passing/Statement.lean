import BisayaPlus.Proofs.Passing.SimpleStatement

/-!
The readers of statements and blocks pass their checks and move on.
-/

namespace BisayaPlus.Cursor

variable {tokens : List Token}

mutual

/-- A statement passes all checks and takes at least one token. -/
theorem passes_statement {pos : Nat} (h : Inside tokens pos) (budget : Nat) :
    Passes tokens pos (statement · budget) (Beyond tokens pos) := by
  cases budget with
  | zero =>
    simp only [statement]
    exact .spent
  | succ budget =>
    simp only [statement]
    refine .forward ((passes_peek h.within).stay fun t ht => ?_)
    have hbegin {x : Steps → Cursor Stmt} (hk : t.kind ≠ .sourceEnd)
        (hx : ∀ n, Inside tokens n → 0 < n → Passes tokens n x (Beyond tokens n)) :
        Passes tokens pos (fun k => advance k >>= fun _ => x k) (Beyond tokens pos) :=
      (passes_advance_of_ne h ht hk).bind fun u n ⟨_, hn, hinside⟩ =>
        (hx n hinside (by omega)).mono fun _ _ ⟨hend, hlt⟩ => ⟨hend, by omega⟩
    cases hk : t.kind with
    | identifier => exact (passes_assignment h budget).bind fun a _ ha => .pure ha
    | keyword k =>
      have hne : t.kind ≠ .sourceEnd := by simp [hk]
      cases k with
      | mugna => exact hbegin hne fun n hn hpos => passes_declaration false hn hpos budget
      | ipakita => exact hbegin hne fun n hn hpos => passes_output hn hpos budget
      | dawat => exact hbegin hne fun n hn hpos => passes_input hn hpos budget
      | kung => exact hbegin hne fun n hn hpos => passes_conditional hn hpos budget
      | alang => exact hbegin hne fun n hn hpos => passes_loop hn hpos budget
      | _ => exact .throw _
    | _ => exact .throw _
termination_by budget

theorem passes_conditional {pos : Nat} (h : Inside tokens pos) (hpos : 0 < pos) (budget : Nat) :
    Passes tokens pos (conditional · budget) (Beyond tokens pos) := by
  cases budget with
  | zero =>
    simp only [conditional]
    exact .spent
  | succ budget =>
    simp only [conditional]
    refine (passes_previous h.within hpos).stay fun start _ => ?_
    refine (passes_branch .kung h budget).bind ?_
    rintro first j ⟨hfirst, hj⟩
    refine (passes_branches hfirst budget).bind ?_
    rintro others k ⟨hothers, hk⟩
    refine (passes_accept _ hothers).bind ?_
    rintro b m ⟨hinside, hm⟩
    cases b with
    | true =>
      obtain ⟨rfl, -⟩ := hm
      refine (passes_block .kungWala hinside budget).bind ?_
      rintro otherwise n ⟨hblock, hn⟩
      exact (passes_previous hblock.within (by omega)).stay fun last _ => .pure ⟨hblock, by omega⟩
    | false =>
      obtain rfl : m = k := hm
      exact (passes_previous hinside.within (by omega)).stay fun last _ => .pure ⟨hinside, by omega⟩
termination_by budget

theorem passes_branches {pos : Nat} (h : Inside tokens pos) (budget : Nat) :
    Passes tokens pos (branches · budget) (NotBefore tokens pos) := by
  cases budget with
  | zero =>
    simp only [branches]
    exact .spent
  | succ budget =>
    simp only [branches]
    refine (passes_accept _ h).bind ?_
    rintro b i ⟨hinside, hi⟩
    cases b with
    | true =>
      obtain ⟨rfl, -⟩ := hi
      refine (passes_branch .kungDili hinside budget).bind ?_
      rintro first j ⟨hfirst, hj⟩
      refine (passes_branches hfirst budget).bind ?_
      rintro others k ⟨hothers, hk⟩
      exact .pure ⟨hothers, by omega⟩
    | false => exact .pure ⟨hinside, Nat.le_of_eq (Eq.symm hi)⟩
termination_by budget

theorem passes_branch (owner : Owner) {pos : Nat} (h : Inside tokens pos) (budget : Nat) :
    Passes tokens pos (branch · owner budget) (Beyond tokens pos) := by
  cases budget with
  | zero =>
    simp only [branch]
    exact .spent
  | succ budget =>
    simp only [branch]
    refine (passes_check _ h.within).stay fun b _ => ?_
    cases b with
    | true =>
      refine (passes_expression h budget).bind ?_
      rintro condition j ⟨hcondition, hj⟩
      refine (passes_block owner hcondition budget).bind ?_
      rintro body k ⟨hbody, hk⟩
      exact .pure ⟨hbody, by omega⟩
    | false => exact (passes_peek h.within).stay fun _ _ => .throw _
termination_by budget

theorem passes_loop {pos : Nat} (h : Inside tokens pos) (hpos : 0 < pos) (budget : Nat) :
    Passes tokens pos (loop · budget) (Beyond tokens pos) := by
  cases budget with
  | zero =>
    simp only [loop]
    exact .spent
  | succ budget =>
    simp only [loop]
    refine (passes_previous h.within hpos).stay fun start _ => ?_
    refine (passes_consume _ _ h).bind ?_
    rintro word j ⟨hword, hj⟩
    refine (passes_loopHeader hword budget).bind ?_
    rintro header k ⟨hheader, hk⟩
    refine (passes_block .alangSa hheader budget).bind ?_
    rintro body m ⟨hbody, hm⟩
    exact .pure ⟨hbody, by omega⟩
termination_by budget

theorem passes_block (owner : Owner) {pos : Nat} (h : Inside tokens pos) (budget : Nat) :
    Passes tokens pos (block · owner budget) (Beyond tokens pos) := by
  cases budget with
  | zero =>
    simp only [block]
    exact .spent
  | succ budget =>
    simp only [block]
    refine .forward ((passes_consume _ _ h).bind ?_)
    rintro start i ⟨hstart, hi⟩
    refine (passes_consume _ _ hstart).bind ?_
    rintro opening j ⟨hopening, hj⟩
    refine (passes_statements hopening budget).bind ?_
    rintro body k ⟨hbody, hk⟩
    refine (passes_consume _ _ hbody).bind ?_
    rintro close m ⟨hclose, hm⟩
    exact .pure ⟨hclose, by omega⟩
termination_by budget

/-- Statements pass all checks. The cursor moves in each turn, since each statement takes a
token. -/
theorem passes_statements {pos : Nat} (h : Inside tokens pos) (budget : Nat) :
    Passes tokens pos (statements · budget) (NotBefore tokens pos) := by
  cases budget with
  | zero =>
    simp only [statements]
    exact .spent
  | succ budget =>
    simp only [statements]
    refine (passes_check _ h.within).stay fun b _ => ?_
    refine (passes_atBodyEnd h.within).bind fun c j hj => ?_
    subst hj
    by_cases hend : (b || c) = true
    · simp only [hend, if_true]
      exact .pure ⟨h, Nat.le_refl _⟩
    · simp only [hend]
      refine (passes_statement h budget).bind ?_
      rintro first k ⟨hfirst, hk⟩
      refine (passes_statements hfirst budget).bind ?_
      rintro others m ⟨hothers, hm⟩
      exact .pure ⟨hothers, by omega⟩
termination_by budget

end

end BisayaPlus.Cursor
