import BisayaPlus.Proofs.CheckedCursor
import BisayaPlus.Proofs.Tracking

/-!
Readers whose checks do not fail. A checked reader passes its checks from a position if it comes to
the result of the reader that checks nothing. The steps of a cursor pass their checks from every
position up to the first end of the source.
-/

namespace BisayaPlus

open Parse

/-- The last token of a list ends the source. Others may do so before it. -/
def Ended (tokens : List Token) : Prop :=
  ∃ before stop, tokens = before ++ [stop] ∧ stop.kind = .sourceEnd

namespace Cursor

variable {α β : Type} {tokens : List Token} {pos pos' n : Nat} {t : Token}

theorem Within.exists_getElem? (h : Within tokens pos) : ∃ t, tokens[pos]? = some t :=
  ⟨_, List.getElem?_eq_getElem h.1⟩

theorem Within.of_le {i : Nat} (h : Within tokens pos) (hi : i ≤ pos) : Within tokens i where
  left := Nat.lt_of_le_of_lt hi h.1
  right t ht := h.2 t ((List.take_prefix_take_left (by omega)).subset ht)

/-- Behind a token that does not end the source there is another token. -/
theorem Within.succ (hended : Ended tokens) (h : Within tokens pos) (ht : tokens[pos]? = some t)
    (hk : t.kind ≠ .sourceEnd) : Within tokens (pos + 1) := by
  obtain ⟨before, stop, rfl, hstop⟩ := hended
  have hlt : pos < before.length := by
    have hle := h.1
    rw [List.length_append, List.length_singleton] at hle
    by_contra hnot
    obtain rfl : pos = before.length := by omega
    rw [List.getElem?_append_right (Nat.le_refl _), Nat.sub_self] at ht
    cases ht
    exact hk hstop
  constructor
  · rw [List.length_append, List.length_singleton]
    omega
  · intro u hu
    rw [List.take_add_one, ht, List.mem_append] at hu
    rcases hu with hu | hu
    · exact h.2 u hu
    · cases List.mem_singleton.1 hu
      exact hk

/-- With the steps that check, a reader does what it does without them, wherever that has a result.
What it returns then, and the position, are as described. -/
def Passes (tokens : List Token) (pos : Nat) (act : Steps → Cursor α) (post : α → Nat → Prop) :
    Prop :=
  ∀ r, act .plain tokens pos = some r →
    act .checked tokens pos = some r ∧ ∀ a pos', r = .ok (a, pos') → post a pos'

namespace Passes

variable {x y : Steps → Cursor α} {f : Steps → α → Cursor β} {p q : α → Nat → Prop}
  {r : β → Nat → Prop}

/-- Readers in sequence pass all checks if each of them does, from where it begins. -/
theorem bind (h : Passes tokens pos x p)
    (hf : ∀ a pos', p a pos' → Passes tokens pos' (f · a) r) :
    Passes tokens pos (fun k => x k >>= f k) r := by
  intro out hout
  dsimp only at hout ⊢
  cases hrun : x .plain tokens pos with
  | none =>
    simp only [Bind.bind, ReaderT.bind, StateT.bind, ExceptT.bind, ExceptT.mk, hrun] at hout
    cases hout
  | some first =>
    obtain ⟨hchecked, hpost⟩ := h first hrun
    cases first with
    | error d =>
      rw [bind_of_error hrun] at hout
      cases hout
      exact ⟨bind_of_error hchecked, fun a pos' h => (nomatch h)⟩
    | ok q =>
      obtain ⟨a, pos'⟩ := q
      rw [bind_of_ok hrun] at hout
      obtain ⟨hrest, hend⟩ := hf a pos' (hpost a pos' rfl) out hout
      exact ⟨(bind_of_ok hchecked).trans hrest, hend⟩

/-- A reader that stays where it is can be followed from there. -/
theorem stay {s : α → Prop} (h : Passes tokens pos x fun a pos' => pos' = pos ∧ s a)
    (hf : ∀ a, s a → Passes tokens pos (f · a) r) :
    Passes tokens pos (fun k => x k >>= f k) r := by
  refine h.bind ?_
  rintro a pos' ⟨hpos, ha⟩
  rw [hpos]
  exact hf a ha

theorem pure {a : α} (h : p a pos) : Passes tokens pos (fun _ => pure a) p := by
  intro out hout
  refine ⟨hout, fun b pos' hb => ?_⟩
  cases hout
  cases hb
  exact h

theorem throw (d : Diagnostic) : Passes tokens pos (fun _ => throw d) p := by
  intro out hout
  refine ⟨hout, fun b pos' hb => ?_⟩
  cases hout
  cases hb

theorem spent : Passes tokens pos (fun _ => Cursor.spent) p :=
  fun _ h => nomatch h

theorem except {e : Except Diagnostic α} (h : ∀ a, p a pos) :
    Passes tokens pos (fun _ => liftExcept e) p := by
  cases e with
  | ok a => exact pure (h a)
  | error d => exact throw d

theorem mono (h : Passes tokens pos x p) (hpq : ∀ a pos', p a pos' → q a pos') :
    Passes tokens pos x q := fun out hout =>
  ⟨(h out hout).1, fun a pos' ha => hpq a pos' ((h out hout).2 a pos' ha)⟩

theorem of_run {a : α} (hplain : x .plain tokens pos = some (.ok (a, pos')))
    (hchecked : x .checked tokens pos = some (.ok (a, pos'))) (h : p a pos') :
    Passes tokens pos x p := by
  intro out hout
  rw [hplain] at hout
  cases hout
  refine ⟨hchecked, fun b n hb => ?_⟩
  cases hb
  exact h

end Passes

structure Inside (tokens : List Token) (pos : Nat) : Prop where
  ended : Ended tokens
  within : Within tokens pos

def Beyond (tokens : List Token) (pos : Nat) : α → Nat → Prop :=
  fun _ pos' => Inside tokens pos' ∧ pos < pos'

def NotBefore (tokens : List Token) (pos : Nat) : α → Nat → Prop :=
  fun _ pos' => Inside tokens pos' ∧ pos ≤ pos'

/-- A reader that ends behind a position passes the check that it moved from there. -/
theorem Passes.forward {x : Steps → Cursor α} (h : Passes tokens pos x (Beyond tokens pos)) :
    Passes tokens pos (fun k => k.forward (x k)) (Beyond tokens pos) := by
  intro out hout
  obtain ⟨hchecked, hpost⟩ := h out hout
  refine ⟨?_, hpost⟩
  dsimp only
  rw [Steps.forward_checked, moving, hchecked]
  cases out with
  | error d => rfl
  | ok q =>
    obtain ⟨a, pos'⟩ := q
    exact if_pos (hpost a pos' rfl).2

theorem token_eq {i : Nat} (ht : tokens[i]? = some t) :
    token i tokens pos = some (.ok (t, pos)) := by
  rw [token, ht]
  rfl

theorem look_of_within {i : Nat} (h : Within tokens i) (ht : tokens[i]? = some t) :
    look i tokens pos = some (.ok (t, pos)) := by
  rw [look, if_pos h, token_eq ht]

theorem passes_token? {i : Nat} (h : Within tokens i) :
    Passes tokens pos (·.token? i) fun t? pos' =>
      pos' = pos ∧ ∃ t, t? = some t ∧ tokens[i]? = some t := by
  obtain ⟨t, ht⟩ := h.exists_getElem?
  have hplain : Steps.plain.token? i tokens pos = some (.ok (some t, pos)) := by
    rw [← ht]
    rfl
  exact .of_run hplain (bind_of_ok (look_of_within h ht)) ⟨rfl, t, rfl, ht⟩

theorem passes_peek (h : Within tokens pos) :
    Passes tokens pos Steps.peek fun t pos' => pos' = pos ∧ tokens[pos]? = some t := by
  obtain ⟨t, ht⟩ := h.exists_getElem?
  have hmin : min pos (tokens.length - 1) = pos := Nat.min_eq_left (Nat.le_sub_one_of_lt h.1)
  have hget : token (min pos (tokens.length - 1)) tokens pos = some (.ok (t, pos)) := by
    rw [hmin, token_eq ht]
  exact .of_run hget (look_of_within h ht) ⟨rfl, ht⟩

theorem passes_previous (h : Within tokens pos) (hpos : 0 < pos) :
    Passes tokens pos Steps.previous fun t pos' => pos' = pos ∧ tokens[pos - 1]? = some t := by
  obtain ⟨t, ht⟩ := (h.of_le (Nat.sub_le pos 1)).exists_getElem?
  have hlook : look (pos - 1) tokens pos = some (.ok (t, pos)) :=
    look_of_within (h.of_le (Nat.sub_le pos 1)) ht
  exact .of_run (token_eq ht) ((if_pos hpos).trans hlook) ⟨rfl, ht⟩

theorem passes_atSourceEnd (h : Within tokens pos) :
    Passes tokens pos atSourceEnd fun b pos' =>
      pos' = pos ∧ ∃ t, tokens[pos]? = some t ∧ (b = true ↔ t.kind = .sourceEnd) := by
  refine (passes_peek h).bind fun t pos' ht => .pure ?_
  exact ⟨ht.1, t, ht.2, beq_iff_eq⟩

/-- The position is known where it is asked for. -/
theorem passes_get {f : Steps → Nat → Cursor β} {r : β → Nat → Prop}
    (h : Passes tokens pos (f · pos) r) :
    Passes tokens pos (fun k => (get : Cursor Nat) >>= f k) r := by
  have hget : Passes tokens pos (fun _ => (get : Cursor Nat)) fun i n => n = pos ∧ i = pos :=
    .of_run rfl rfl ⟨rfl, rfl⟩
  refine hget.stay fun i hi => ?_
  rw [hi]
  exact h

theorem passes_move (h : Within tokens (pos + 1)) :
    Passes tokens pos Steps.move fun _ pos' => pos' = pos + 1 :=
  .of_run rfl (if_pos h) rfl

/-- Where the source does not end, the cursor moves over the token that stands next. -/
theorem passes_advance_of_ne (h : Inside tokens pos) (ht : tokens[pos]? = some t)
    (hk : t.kind ≠ .sourceEnd) :
    Passes tokens pos advance fun u pos' =>
      u = t ∧ pos' = pos + 1 ∧ Inside tokens pos' := by
  have hnext : Within tokens (pos + 1) := h.within.succ h.ended ht hk
  refine (passes_atSourceEnd h.within).stay ?_
  rintro b ⟨u, hu, hb⟩
  have hfalse : ¬b = true := fun htrue => hk (Option.some.inj (ht.symm.trans hu) ▸ hb.1 htrue)
  simp only [hfalse]
  refine (passes_move hnext).bind fun _ pos'' hmoved => ?_
  subst hmoved
  refine (passes_previous hnext (Nat.succ_pos _)).mono ?_
  rintro v n ⟨hn, hv⟩
  rw [Nat.add_sub_cancel, ht] at hv
  exact ⟨(Option.some.inj hv).symm, hn, h.ended, hn ▸ hnext⟩

/-- At the end of the source the cursor returns the token in front of it, of which there must be
one. -/
theorem passes_advance (h : Inside tokens pos) (hpos : 0 < pos) :
    Passes tokens pos advance fun u pos' =>
      (Inside tokens pos' ∧ pos < pos') ∨
        (Inside tokens pos' ∧ pos' = pos ∧ tokens[pos - 1]? = some u) := by
  obtain ⟨t, ht⟩ := h.within.exists_getElem?
  by_cases hk : t.kind = .sourceEnd
  · refine (passes_atSourceEnd h.within).stay ?_
    rintro b ⟨u, hu, hb⟩
    have htrue : b = true := hb.2 (Option.some.inj (ht.symm.trans hu) ▸ hk)
    simp only [htrue, if_true]
    exact (passes_previous h.within hpos).mono fun v n ⟨hn, hv⟩ => .inr ⟨hn ▸ h, hn, hv⟩
  · refine (passes_advance_of_ne h ht hk).mono fun u n ⟨_, hn, hinside⟩ => .inl ⟨hinside, ?_⟩
    omega

theorem passes_check (kind : Token.Kind) (h : Within tokens pos) :
    Passes tokens pos (check · kind) fun b pos' => pos' = pos ∧
      (b = true → ∃ t, tokens[pos]? = some t ∧ t.kind = kind ∧ t.kind ≠ .sourceEnd) := by
  refine (passes_atSourceEnd h).stay ?_
  rintro b ⟨t, ht, hb⟩
  cases b with
  | true => exact .pure ⟨rfl, fun hfalse => (nomatch hfalse)⟩
  | false =>
    have hk : t.kind ≠ .sourceEnd := fun hend => nomatch hb.2 hend
    refine (passes_peek h).stay fun u hu => .pure ⟨rfl, fun heq => ?_⟩
    obtain rfl : t = u := Option.some.inj (ht.symm.trans hu)
    exact ⟨t, ht, beq_iff_eq.1 heq, hk⟩

/-- Accepting a token passes all checks, since the end of the source is never accepted. -/
theorem passes_accept (kind : Token.Kind) (h : Inside tokens pos) :
    Passes tokens pos (accept · kind) fun b pos' => Inside tokens pos' ∧
      if b then pos' = pos + 1 ∧ ∃ t, tokens[pos]? = some t ∧ t.kind = kind else pos' = pos := by
  refine (passes_check kind h.within).stay fun b hb => ?_
  cases b with
  | false => exact .pure ⟨h, rfl⟩
  | true =>
    obtain ⟨t, ht, hkind, hk⟩ := hb rfl
    refine (passes_advance_of_ne h ht hk).bind ?_
    rintro u pos'' ⟨_, hpos, hinside⟩
    exact .pure ⟨hinside, hpos, t, ht, hkind⟩

theorem passes_atBodyEnd (h : Within tokens pos) :
    Passes tokens pos atBodyEnd fun _ pos' => pos' = pos := by
  refine (passes_check _ h).stay fun _ _ => ?_
  exact (passes_atSourceEnd h).stay fun _ _ => .pure rfl

/-- A name with a symbol behind it is two tokens, and both are before the end of the source. -/
theorem passes_atNameBefore {s : Symbol} (h : Inside tokens pos) :
    Passes tokens pos (atNameBefore · s) fun b pos' => pos' = pos ∧
      (b = true → ∃ t u, tokens[pos]? = some t ∧ t.kind ≠ .sourceEnd ∧
        tokens[pos + 1]? = some u ∧ u.kind ≠ .sourceEnd) := by
  refine (passes_check _ h.within).stay fun b hb => ?_
  cases b with
  | false => exact .pure ⟨rfl, fun hfalse => (nomatch hfalse)⟩
  | true =>
    obtain ⟨t, ht, -, hk⟩ := hb rfl
    refine passes_get ((passes_token? (h.within.succ h.ended ht hk)).stay ?_)
    rintro _ ⟨u, rfl, hu⟩
    refine .pure ⟨rfl, fun hs => ⟨t, u, ht, hk, hu, fun hend => ?_⟩⟩
    simp [Token.isSymbol, hend] at hs

theorem passes_faultSpan (h : Within tokens pos) :
    Passes tokens pos faultSpan fun _ _ => True := by
  refine passes_get ((passes_atSourceEnd h).stay fun b _ => ?_)
  by_cases hback : (b && decide (0 < pos)) = true
  · simp only [hback, if_true]
    have hpos : 0 < pos := by simpa using (Bool.and_eq_true_iff.1 hback).2
    exact (passes_previous h hpos).stay fun _ _ => .pure trivial
  · simp only [hback]
    exact (passes_peek h).stay fun _ _ => .pure trivial

/-- Consuming a token passes all checks, and moves if there is such a token. -/
theorem passes_consume (kind : Token.Kind) (what : Expectation) (h : Inside tokens pos) :
    Passes tokens pos (consume · kind what) (Beyond tokens pos) := by
  refine (passes_check kind h.within).stay fun b hb => ?_
  cases b with
  | true =>
    obtain ⟨t, ht, -, hk⟩ := hb rfl
    refine (passes_advance_of_ne h ht hk).mono fun u n ⟨_, hn, hinside⟩ => ⟨hinside, ?_⟩
    omega
  | false =>
    refine (passes_peek h.within).stay fun t _ => ?_
    exact (passes_faultSpan h.within).bind fun _ _ _ => .throw _

/-- A look at an operand goes no further than a name and the token behind it. -/
theorem passes_startsOperandAt {i : Nat} (hended : Ended tokens) (h : Within tokens i) :
    Passes tokens pos (startsOperandAt · i) fun _ pos' => pos' = pos := by
  refine (passes_token? h).stay ?_
  rintro _ ⟨t, rfl, ht⟩
  dsimp only
  cases hk : t.kind with
  | identifier =>
    have hnext : Within tokens (i + 1) := h.succ hended ht (by simp [hk])
    exact (passes_token? hnext).stay fun _ _ => .pure rfl
  | _ => exact .pure rfl

theorem passes_requireOperand (operator : Token) (h : Inside tokens pos) :
    Passes tokens pos (requireOperand · operator) fun _ pos' => pos' = pos := by
  refine passes_get ((passes_startsOperandAt h.ended h.within).bind fun b pos' hpos => ?_)
  subst hpos
  cases b with
  | true => exact .pure rfl
  | false => exact (passes_peek h.within).stay fun _ _ => .throw _

/-- The look behind the word for false passes all checks, since the word is not the end of the
source. -/
theorem passes_atNot (h : Inside tokens pos) :
    Passes tokens pos atNot fun b pos' => pos' = pos ∧
      (b = true → ∃ t, tokens[pos]? = some t ∧ t.kind ≠ .sourceEnd) := by
  refine (passes_peek h.within).stay fun t ht => ?_
  by_cases hfalse : (t.kind == .boolean && t.lexeme == Value.falseWord) = true
  · simp only [hfalse, if_true]
    have hk : t.kind ≠ .sourceEnd := by
      intro hend
      simp [hend] at hfalse
    refine passes_get ((passes_startsOperandAt h.ended (h.within.succ h.ended ht hk)).mono ?_)
    exact fun b n hn => ⟨hn, fun _ => ⟨t, ht, hk⟩⟩
  · simp only [hfalse]
    exact .pure ⟨rfl, fun htrue => (nomatch htrue)⟩

/-- A reader of what may be missing moves if it returns something, and stays if not. -/
def MovesIfSome (tokens : List Token) (pos : Nat) : Option α → Nat → Prop :=
  fun a? pos' => Inside tokens pos' ∧ if a?.isSome then pos < pos' else pos' = pos

/-- A token of a kind stands for a value, and without it another reader tells what there is. -/
theorem passes_acceptElse {x : Steps → Cursor (Option α)} (kind : Token.Kind) (a : α)
    (h : Inside tokens pos) (hx : Passes tokens pos x (MovesIfSome tokens pos)) :
    Passes tokens pos (fun k => do if ← accept k kind then return some a else x k)
      (MovesIfSome tokens pos) := by
  refine (passes_accept kind h).bind ?_
  rintro b pos' ⟨hinside, hpos⟩
  cases b with
  | true => exact .pure ⟨hinside, hpos.1 ▸ Nat.lt_succ_self pos⟩
  | false =>
    obtain rfl : pos' = pos := hpos
    exact hx

theorem passes_acceptBinary (ops : List BinaryOp) (h : Inside tokens pos) :
    Passes tokens pos (acceptBinary · ops) (MovesIfSome tokens pos) := by
  refine (passes_peek h.within).stay fun t ht => ?_
  cases hop : binaryOp? ops t with
  | none => exact .pure ⟨h, rfl⟩
  | some op =>
    have hk : t.kind ≠ .sourceEnd := by
      intro hend
      rw [binaryOp?, hend] at hop
      cases hop
    refine (passes_advance_of_ne h ht hk).bind ?_
    rintro u n ⟨_, hn, hinside⟩
    exact .pure ⟨hinside, hn ▸ Nat.lt_succ_self _⟩

theorem passes_acceptUnary (h : Inside tokens pos) :
    Passes tokens pos acceptUnary (MovesIfSome tokens pos) := by
  refine passes_acceptElse _ _ h (passes_acceptElse _ _ h ((passes_atNot h).stay ?_))
  intro negates hnot
  cases negates with
  | false => exact .pure ⟨h, rfl⟩
  | true =>
    obtain ⟨t, ht, hk⟩ := hnot rfl
    refine (passes_advance_of_ne h ht hk).bind ?_
    rintro u m ⟨_, hm, hinside⟩
    exact .pure ⟨hinside, hm ▸ Nat.lt_succ_self _⟩

end Cursor

end BisayaPlus
