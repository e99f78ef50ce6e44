import BisayaPlus.Proofs.InitialValueEdit
import BisayaPlus.Proofs.Settling.Statement

/-!
Where a value is taken out of a declaration, two statements are derived in the place of one, and
everything else is derived as before. The place is a site in the list of statements, which may lie
in a block of one of them.
-/

namespace BisayaPlus

open Token Grammar

inductive Expr.Denotes : Expr → Value → Prop
  | literal (v : Value) (m : Mark) : Denotes (.literal v m) v
  | negative (n : Number) (m m' : Mark) :
      Denotes (.unary .negate (.literal (.number n) m) m') (.number n.neg)
  | positive (n : Number) (m m' : Mark) :
      Denotes (.unary .plus (.literal (.number n) m) m') (.number n)

namespace Grammar

/-- A token like that of a literal is read as the literal. -/
theorem Literal.exists_exprAt {t : Token} {us : List Token} {v : Value}
    {after : List (Token.Kind × String)} (h : Literal t v) (hus : us.map face = t.face :: after)
    (hr : ∀ rest : List Token, rest.map face = after → ¬BeginsOperand rest) :
    ∃ rest, rest.map face = after ∧ ExprAt 6 us (.literal v .blank) rest := by
  obtain ⟨u, rest, rfl, hu, hrest⟩ := List.map_eq_cons_iff.1 hus
  have hv := h.of_face (congrArg Prod.fst hu) (congrArg Prod.snd hu)
  exact ⟨rest, hrest, .literal hv fun _ => hr rest hrest⟩

/-- What is an initial value in a declaration is an expression with that value in an assignment.
The word for false is a literal there, since no operand begins behind it. -/
theorem InitialAt.exists_exprAt {i : Initialization} {ts rest : List Token} {v : Value}
    {after : List (Token.Kind × String)} (h : InitialAt ts v rest)
    (hts : ts.map face = i.value ++ after) (hr : ¬BeginsOperand rest) :
    ∃ e : Expr, e.Denotes v ∧ ∀ us : List Token, us.map face = i.value ++ after →
      ∃ rest', rest'.map face = after ∧ ExprAt 0 us e rest' := by
  have hrest := h.map_face i.isInitial hts
  have hbegins (rest' : List Token) (h' : rest'.map face = after) : ¬BeginsOperand rest' :=
    fun hb => hr ((Edit.same (i := i) (h'.trans hrest.symm)).beginsOperand_iff.1 hb)
  -- a sign is a unary operator before the literal
  have hsigned {sign t : Token} {op : UnaryOp} {n : Number} (hv : Literal t (.number n))
      (ho : ∀ u us, u.kind = sign.kind → UnaryOpAt (u :: us) op us) (us : List Token)
      (hus : us.map face = sign.face :: t.face :: after) :
      ∃ rest', rest'.map face = after ∧
        ExprAt 0 us (.unary op (.literal (.number n) .blank) .blank) rest' := by
    obtain ⟨u, us, rfl, hu, hus⟩ := List.map_eq_cons_iff.1 hus
    obtain ⟨rest', hrest', he⟩ := hv.exists_exprAt hus hbegins
    exact ⟨rest', hrest', .loosen (.unary (ho u us (congrArg Prod.fst hu)) he) (Nat.le_refl 6)
      (Nat.zero_le 6)⟩
  cases h with
  | @literal t _ v hv =>
    rw [List.map_cons, hrest] at hts
    refine ⟨.literal v .blank, .literal v .blank, fun us hus => ?_⟩
    obtain ⟨rest', hrest', he⟩ := hv.exists_exprAt (hus.trans hts.symm) hbegins
    exact ⟨rest', hrest', he.loosen (Nat.le_refl 6) (Nat.zero_le 6)⟩
  | @negative sign t _ n hs hv =>
    rw [List.map_cons, List.map_cons, hrest] at hts
    exact ⟨_, .negative n .blank .blank, fun us hus =>
      hsigned hv (fun u us hu => .negate (hu.trans hs)) us (hus.trans hts.symm)⟩
  | @positive sign t _ n hs hv =>
    rw [List.map_cons, List.map_cons, hrest] at hts
    exact ⟨_, .positive n .blank .blank, fun us hus =>
      hsigned hv (fun u us hu => .plus (hu.trans hs)) us (hus.trans hts.symm)⟩

end Grammar

/-- A statement with one of its blocks left open. -/
inductive Frame where
  | kung (condition : Expr) (others : List Branch) (otherwise : Option Block) (span : Span)
  | kungDili (first : Branch) (before : List Branch) (condition : Expr) (after : List Branch)
      (otherwise : Option Block) (span : Span)
  | kungWala (first : Branch) (others : List Branch) (span : Span)
  | alangSa (initializer : Stmt) (condition : Expr) (increment : Assignment) (span : Span)

def Frame.fill : Frame → Block → Stmt
  | .kung condition others otherwise span, b =>
    .conditional (.mk condition b) others otherwise span
  | .kungDili first before condition after otherwise span, b =>
    .conditional first (before ++ .mk condition b :: after) otherwise span
  | .kungWala first others span, b => .conditional first others (some b) span
  | .alangSa initializer condition increment span, b =>
    .loop initializer condition increment b span

/-- A place in a list of statements, in front of the rest of the list or of that of a block. -/
inductive Site where
  | here
  | behind (s : Stmt) (site : Site)
  | within (frame : Frame) (site : Site) (span : Span) (after : List Stmt)

def Site.fill : Site → List Stmt → List Stmt
  | .here, ss => ss
  | .behind s site, ss => s :: site.fill ss
  | .within frame site span after, ss => frame.fill (.mk (site.fill ss) span) :: after

namespace Initialization

/-- The statement that declares the name with a value, and the two that declare it and assign the
value. -/
inductive Splits (i : Initialization) (v : Value) : Stmt → List Stmt → Prop
  | mk {e : Expr} (he : e.Denotes v) (m : Mark) (span : Span) :
      Splits i v (.declaration i.type [⟨i.name, some v, m⟩] span)
        [.declaration i.type [⟨i.name, none, m⟩] span, .assignment ⟨[i.name], e, m⟩]

/-- Two lists of statements are the same but for one site, where the value is given in the
declaration in the one and behind it in the other. -/
def Parts (i : Initialization) (ss us : List Stmt) : Prop :=
  ∃ (site : Site) (v : Value) (s : Stmt) (ds rest : List Stmt), i.Splits v s ds ∧
    ss = site.fill (s :: rest) ∧ us = site.fill (ds ++ rest)

/-- Two trees are the same but for a block of them, and in the block for one site. -/
inductive Within {κ α : Type} (i : Initialization) (fill : κ → Block → α) : α → α → Prop
  | mk (c : κ) (span : Span) {ss us : List Stmt} (h : i.Parts ss us) :
      Within i fill (fill c (.mk ss span)) (fill c (.mk us span))

end Initialization

/-- A tree before and after an edit: the same while the place is still ahead or was there before,
and changed if the place was in it. -/
inductive Changes {α : Type} (changed : α → α → Prop) : Bool → Bool → α → α → Prop
  | never {b : Bool} (a : α) : Changes changed b b a a
  | once {a a' : α} (h : changed a a') : Changes changed true false a a'

namespace Changes

variable {α β γ δ : Type} {P : α → α → Prop} {Q : β → β → Prop} {R : γ → γ → Prop}
  {S : δ → δ → Prop} {b k l n : Bool} {x x' : α} {y y' : β} {z z' : γ}

theorem map (f : α → β) (h : Changes P b k x x') (hf : ∀ ⦃x x'⦄, P x x' → Q (f x) (f x')) :
    Changes Q b k (f x) (f x') := by
  cases h with
  | never => exact .never _
  | once h => exact .once (hf h)

/-- Of two trees one after another, only one is changed. -/
theorem map₂ (f : α → β → γ) (h : Changes P b k x x') (h' : Changes Q k l y y')
    (hx : ∀ ⦃x x'⦄ y, P x x' → R (f x y) (f x' y))
    (hy : ∀ x ⦃y y'⦄, Q y y' → R (f x y) (f x y')) : Changes R b l (f x y) (f x' y') := by
  cases h with
  | never => exact h'.map (f x) (hy x)
  | once h =>
    cases h' with
    | never => exact .once (hx y h)

theorem map₃ (f : α → β → γ → δ) (h : Changes P b k x x') (h' : Changes Q k l y y')
    (h₂ : Changes R l n z z') (hx : ∀ ⦃x x'⦄ y z, P x x' → S (f x y z) (f x' y z))
    (hy : ∀ x ⦃y y'⦄ z, Q y y' → S (f x y z) (f x y' z))
    (hz : ∀ x y ⦃z z'⦄, R z z' → S (f x y z) (f x y z')) :
    Changes S b n (f x y z) (f x' y' z') := by
  cases h with
  | never => exact h'.map₂ (f x) h₂ (hy x) (hz x)
  | once h =>
    cases h' with
    | never =>
      cases h₂ with
      | never => exact .once (hx y z h)

end Changes

namespace Grammar

open Initialization Edit Parse

variable {α : Type} {i : Initialization} {b : Bool} {ts us rest : List Token}

theorem StatementsAt.not_beginsOperand {ss : List Stmt} (h : StatementsAt ts ss rest)
    (hr : AtEnd rest) : ¬BeginsOperand ts := by
  have hnil : ¬BeginsOperand [] := nofun
  obtain rfl | hfollows := apart_statements ts rest ⟨ss, h⟩
  · obtain rfl | hbrace := hr
    · exact hnil
    · obtain ⟨t, us, rfl, ht⟩ := exists_cons_of_front? hbrace
      exact fun hb => hnil ((follows_nil_of_symbol ht (by simp) us).operand hb)
  · exact fun hb => hnil (hfollows.operand hb)

/-- The declaration without its value is derived. -/
theorem exists_statementAt_of_bare {fs : List (Token.Kind × String)}
    (h : us.map face = i.bare ++ fs) (m : Mark) (span : Span) : ∃ rest, rest.map face = fs ∧
      StatementAt us (.declaration i.type [⟨i.name, none, m⟩] span) rest := by
  obtain ⟨t, us, rfl, ht, hus⟩ := List.map_eq_cons_iff.1 h
  obtain ⟨word, us, rfl, hword, hus⟩ := List.map_eq_cons_iff.1 hus
  obtain ⟨name, rest, rfl, hname, hrest⟩ := List.map_eq_cons_iff.1 hus
  have hl : name.lexeme = i.name := congrArg Prod.snd hname
  rw [← hl]
  exact ⟨rest, hrest, .declaration (congrArg Prod.fst ht) (congrArg Prod.fst hword)
    (.one (.bare (congrArg Prod.fst hname)))⟩

theorem exists_assignmentAt {e : Expr} {fs after : List (Token.Kind × String)} {x : String}
    (h : us.map face = (.identifier, x) :: (.symbol .equal, Symbol.equal.spelling) :: fs)
    (he : ∀ us : List Token, us.map face = fs → ∃ rest, rest.map face = after ∧ ExprAt 0 us e rest)
    (m : Mark) : ∃ rest, rest.map face = after ∧ AssignmentAt us ⟨[x], e, m⟩ rest := by
  obtain ⟨name, us, rfl, hname, hus⟩ := List.map_eq_cons_iff.1 h
  obtain ⟨equal, us, rfl, hequal, hus⟩ := List.map_eq_cons_iff.1 hus
  obtain ⟨rest, hrest, he⟩ := he us hus
  have hl : name.lexeme = x := congrArg Prod.snd hname
  rw [← hl]
  exact ⟨rest, hrest, .mk (.cons (congrArg Prod.fst hname) (congrArg Prod.fst hequal) .nil) he⟩

/-- At the place of the edit two statements are derived in the place of one. -/
theorem StatementAt.exists_of_here {s : Stmt} (h : StatementAt ts s rest)
    (hr : EndsStatement rest) (hno : ¬BeginsOperand rest) (he : Here i ts us) :
    ∃ v ds rest', i.Splits v s ds ∧ Edit i false rest rest' ∧
      ∀ ss after, StatementsAt rest' ss after → StatementsAt us (ds ++ ss) after := by
  obtain ⟨after, hts, hus, hcomma⟩ := he
  cases h with
  | @declaration t word vs _ type ds span ht hw hd =>
    obtain ⟨-, hts⟩ := List.cons.inj hts
    obtain ⟨hword, hvs⟩ := List.cons.inj hts
    have htype : type = i.type := by
      have hk : word.kind = .keyword i.type.keyword := congrArg Prod.fst hword
      rw [hw] at hk
      cases type <;> cases hi : i.type <;> simp [hi, DataType.keyword] at hk <;> rfl
    subst htype
    cases hd with
    | more hd hc has =>
      -- there is no comma behind the value
      obtain ⟨ws, v, m, -, hws, hv⟩ := hd.exists_initialAt hvs (by simp [hc])
      rw [← hv.map_face i.isInitial hws] at hcomma
      exact absurd (congrArg some hc) hcomma
    | one hd =>
      obtain ⟨ws, v, m, rfl, hws, hv⟩ := hd.exists_initialAt hvs hr.level.1
      obtain ⟨e, hden, hexpr⟩ := hv.exists_exprAt hws hno
      rw [assigned, List.append_assoc] at hus
      obtain ⟨us', hus', hdeclaration⟩ := exists_statementAt_of_bare hus m span
      obtain ⟨rest', hrest', hassignment⟩ := exists_assignmentAt hus' hexpr m
      have hrest := hv.map_face i.isInitial hws
      exact ⟨v, _, rest', .mk hden m span, .same (hrest'.trans hrest.symm),
        fun ss after hss => .cons hdeclaration (.cons (.assignment hassignment) hss)⟩
  | assignment ha =>
    obtain ⟨t, equal, vs, rfl, ht, -⟩ := ha.exists_cons
    have hk : t.kind = .keyword .mugna := congrArg Prod.fst (List.cons.inj hts).1
    simp [ht] at hk
  | @output t | @input t | @conditional t | @loop t =>
    have hk : t.kind = .keyword .mugna := congrArg Prod.fst (List.cons.inj hts).1
    simp_all

def Yields (i : Initialization) (N : List Token → α → List Token → Prop) (changed : α → α → Prop)
    (b : Bool) (us : List Token) (a : α) (rest : List Token) : Prop :=
  ∃ k a' rest', Edit i k rest rest' ∧ N us a' rest' ∧ Changes changed b k a a'

/-- A tree without blocks is the same behind the edit if what it is made of is. -/
theorem Keeps.yields {β : Type} {N : List Token → α → List Token → Prop}
    {M : List Token → β → List Token → Prop} {changed : β → β → Prop} {a : α} {c : β}
    {vs : List Token} (h : Keeps i N) (ha : N ts a rest) (he : Edit i b ts us)
    (hM : ∀ rest', N us a rest' → M vs c rest') : Yields i M changed b vs c rest := by
  obtain ⟨rest', he, ha⟩ := h ha he
  exact ⟨b, c, rest', he, hM rest' ha, .never c⟩

mutual

/-- A statement of which the first token stays is derived behind the edit, changed if the place is
in one of its blocks. -/
theorem StatementAt.yields {s : Stmt} {ts us rest : List Token} {b : Bool}
    (h : StatementAt ts s rest) (he : Next i b ts us) :
    Yields i StatementAt (Within i Frame.fill) b us s rest :=
  match h with
  | .declaration ht hw hd => by
    obtain ⟨_, _, u, us, heq, rfl, hf, he⟩ := he
    cases heq
    obtain ⟨word, us, rfl, hk, -, he⟩ := he.uncons (hw ▸ DataType.keyword_ne_mugna _)
    exact (keeps_declaratorAt.separated (by decide)).yields hd he fun _ =>
      .declaration ((congrArg Prod.fst hf).trans ht) (hk.trans hw)
  | .assignment ha => keeps_assignmentAt.yields ha he.edit fun _ => .assignment
  | .output ht hc hes => by
    obtain ⟨u, us, rfl, hk, -, he⟩ := he.edit.uncons (by simp [ht])
    obtain ⟨colon, us, rfl, hk', -, he⟩ := he.uncons (by simp [hc])
    exact ((keeps_exprAt 0).separated (by decide)).yields hes he fun _ =>
      .output (hk.trans ht) (hk'.trans hc)
  | .input ht hc hn => by
    obtain ⟨u, us, rfl, hk, -, he⟩ := he.edit.uncons (by simp [ht])
    obtain ⟨colon, us, rfl, hk', -, he⟩ := he.uncons (by simp [hc])
    exact (keeps_nameAt.separated (by decide)).yields hn he fun _ =>
      .input (hk.trans ht) (hk'.trans hc)
  | .conditional ht hf hb ho => by
    obtain ⟨u, us, rfl, hk, -, he⟩ := he.edit.uncons (by simp [ht])
    obtain ⟨k, first, us, he, hf, c⟩ := hf.yields he
    obtain ⟨k', others, us, he, hb, c'⟩ := hb.yields he
    obtain ⟨k₂, otherwise, rest', he, ho, c₂⟩ := ho.yields he
    refine ⟨k₂, _, rest', he, .conditional (hk.trans ht) hf hb ho,
      c.map₃ (Stmt.conditional · · · _) c' c₂ ?_ ?_ ?_⟩
    · rintro _ _ xs o ⟨condition, span, h⟩
      exact .mk (Frame.kung condition xs o _) span h
    · rintro x _ _ o ⟨⟨before, condition, after⟩, span, h⟩
      exact .mk (Frame.kungDili x before condition after o _) span h
    · rintro x xs _ _ ⟨-, span, h⟩
      exact .mk (Frame.kungWala x xs _) span h
  | .loop ht hw hh hb => by
    obtain ⟨u, us, rfl, hk, -, he⟩ := he.edit.uncons (by simp [ht])
    obtain ⟨word, us, rfl, hk', -, he⟩ := he.uncons (by simp [hw])
    obtain ⟨us, he, hh⟩ := keeps_loopHeaderAt hh he
    obtain ⟨k, body, rest', he, hb, c⟩ := hb.yields he
    refine ⟨k, _, rest', he, .loop (hk.trans ht) (hk'.trans hw) hh hb,
      c.map (Stmt.loop _ _ _ · _) ?_⟩
    rintro _ _ ⟨-, span, h⟩
    exact .mk (Frame.alangSa _ _ _ _) span h

theorem BranchAt.yields {x : Branch} {ts us rest : List Token} {b : Bool} (h : BranchAt ts x rest)
    (he : Edit i b ts us) : Yields i BranchAt (Within i Branch.mk) b us x rest :=
  match h with
  | .mk hf hc hb => by
    have hf' := he.front?_eq.trans hf
    obtain ⟨us', he, hc⟩ := keeps_exprAt 0 hc he
    obtain ⟨k, body, rest', he, hb, c⟩ := hb.yields he
    refine ⟨k, _, rest', he, .mk hf' hc hb, c.map (Branch.mk _) ?_⟩
    rintro _ _ ⟨-, span, h⟩
    exact .mk _ span h

theorem BranchesAt.yields {xs : List Branch} {ts us rest : List Token} {b : Bool}
    (h : BranchesAt ts xs rest) (he : Edit i b ts us) :
    Yields i BranchesAt (Within i fun (c : List Branch × Expr × List Branch) body =>
      c.1 ++ Branch.mk c.2.1 body :: c.2.2) b us xs rest :=
  match h with
  | .nil => ⟨b, _, us, he, .nil, .never _⟩
  | .cons ht hb hbs => by
    obtain ⟨u, us, rfl, hk, -, he⟩ := he.uncons (by simp [ht])
    obtain ⟨k, x, us, he, hb, c⟩ := hb.yields he
    obtain ⟨k', xs, rest', he, hbs, c'⟩ := hbs.yields he
    refine ⟨k', _, rest', he, .cons (hk.trans ht) hb hbs, c.map₂ List.cons c' ?_ ?_⟩
    · rintro _ _ xs ⟨condition, span, h⟩
      exact .mk ([], condition, xs) span h
    · rintro x _ _ ⟨⟨before, condition, after⟩, span, h⟩
      exact .mk (x :: before, condition, after) span h

theorem OtherwiseAt.yields {o : Option Block} {ts us rest : List Token} {b : Bool}
    (h : OtherwiseAt ts o rest) (he : Edit i b ts us) :
    Yields i OtherwiseAt (Within i fun (_ : Unit) body => some body) b us o rest :=
  match h with
  | .none => ⟨b, _, us, he, .none, .never _⟩
  | .some ht hb => by
    obtain ⟨u, us, rfl, hk, -, he⟩ := he.uncons (by simp [ht])
    obtain ⟨k, body, rest', he, hb, c⟩ := hb.yields he
    refine ⟨k, _, rest', he, .some (hk.trans ht) hb, c.map some ?_⟩
    rintro _ _ ⟨-, span, h⟩
    exact .mk () span h

theorem BlockAt.yields {x : Block} {ts us rest : List Token} {b : Bool} (h : BlockAt ts x rest)
    (he : Edit i b ts us) : Yields i BlockAt (Within i fun (_ : Unit) body => body) b us x rest :=
  match h with
  | .mk hw ho hs hc => by
    obtain ⟨word, us, rfl, hk, -, he⟩ := he.uncons (by simp [hw])
    obtain ⟨opening, us, rfl, hk', -, he⟩ := he.uncons (by simp [ho])
    obtain ⟨k, ss, us, he, hs, c⟩ := hs.yields (.inr (by simp [hc])) he
    obtain ⟨closing, rest', rfl, hk₂, -, he⟩ := he.uncons (by simp [hc])
    exact ⟨k, _, rest', he, .mk (hk.trans hw) (hk'.trans ho) hs (hk₂.trans hc),
      c.map (Block.mk · _) fun _ _ h => .mk () _ h⟩

/-- Statements are derived behind the edit, with two of them for one if the place is in front. -/
theorem StatementsAt.yields {ss : List Stmt} {ts us rest : List Token} {b : Bool}
    (h : StatementsAt ts ss rest) (hr : AtEnd rest) (he : Edit i b ts us) :
    Yields i StatementsAt i.Parts b us ss rest :=
  match h with
  | .nil => ⟨b, _, us, he, .nil, .never _⟩
  | .cons hs hss => by
    obtain ⟨t, vs, hvs, -⟩ := hs.exists_cons
    rw [hvs] at he
    obtain hnext | ⟨hb, hhere⟩ := he.cons_cases
    · rw [← hvs] at hnext
      obtain ⟨k, s, us, he, hs, c⟩ := hs.yields hnext
      obtain ⟨k', ss, rest', he, hss, c'⟩ := hss.yields hr he
      refine ⟨k', _, rest', he, .cons hs hss, c.map₂ List.cons c' ?_ ?_⟩
      · rintro _ _ ss ⟨frame, span, site, v, s, ds, rest, hsplits, rfl, rfl⟩
        exact ⟨.within frame site span ss, v, s, ds, rest, hsplits, rfl, rfl⟩
      · rintro s _ _ ⟨site, v, s', ds, rest, hsplits, rfl, rfl⟩
        exact ⟨.behind s site, v, s', ds, rest, hsplits, rfl, rfl⟩
    · rw [← hvs] at hhere
      obtain ⟨v, ds, us', hsplits, he', hds⟩ :=
        hs.exists_of_here (hss.endsStatement hr) (hss.not_beginsOperand hr) hhere
      obtain ⟨k, ss', rest', hend, hss', c⟩ := hss.yields hr he'
      subst hb
      cases c with
      | never =>
        exact ⟨false, ds ++ _, rest', hend, hds _ rest' hss',
          .once ⟨.here, v, _, ds, _, hsplits, rfl, rfl⟩⟩

end

end Grammar

end BisayaPlus
