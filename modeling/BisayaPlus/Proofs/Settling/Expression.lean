import BisayaPlus.Proofs.Lookahead

/-!
The readers of expressions and of simple statements settle: they look ahead no further than they
should, and blame the right token.
-/

namespace BisayaPlus.Parse

open Token Grammar

variable {stop t : Token} {ts rest : List Token}

/-- A text can stand for an expression that is missing. -/
theorem begins_expr {k : Nat} (hk : k ≤ 6) : (Phrase.of (ExprAt k)).Begins [] := by
  refine ⟨[Phrase.blank .text], by simp [Phrase.blank, Program.endsBody], fun other _ => ?_⟩
  have hnot : IsFalse (Phrase.blank .text) → ¬BeginsOperand other := fun h => by cases h.1
  have htext : ExprAt 6 (Phrase.blank .text :: other) (.literal (.text "") ⟨⟨0, 0⟩, 0⟩) other :=
    .literal (.text rfl) hnot
  exact ⟨_, htext.loosen (Nat.le_refl 6) hk⟩

theorem unaryOp?_eq_none_of_kind (hm : t.kind ≠ .symbol .minus) (hp : t.kind ≠ .symbol .plus)
    (hb : t.kind ≠ .boolean) (rest : List Token) : unaryOp? t rest = none := by
  rw [unaryOp?, if_neg hm, if_neg hp, if_neg fun h => hb h.1]

/-- Two tokens tell whether the one before them is a unary operator. -/
theorem unaryOp?_eq_of_alike {stop' : Token} {rest' : List Token}
    (h : Alike stop stop' 2 rest rest') : unaryOp? t rest' = unaryOp? t rest := by
  rw [unaryOp?, unaryOp?, h.startsOperand_eq]

theorem line_noOperand (stop : Token) : (noOperand stop).mark.line = stop.line := by
  unfold noOperand
  split <;> rfl

theorem line_of_number {d : Diagnostic} (h : number t = .error d) : d.mark.line = t.line := by
  unfold number at h
  split at h
  · split at h
    · cases h
    · cases h
      rfl
  · cases h
    rfl

/-- The token of a literal that has no value is blamed for it. -/
theorem line_of_literal? {d : Diagnostic} (h : literal? t = some (.error d)) :
    d.mark.line = t.line ∧ t.kind ≠ .boolean := by
  unfold literal? at h
  split at h
  · rename_i hk
    refine ⟨?_, by simp [hk]⟩
    cases hn : number t with
    | ok n =>
      rw [hn] at h
      cases h
    | error d' =>
      rw [hn] at h
      cases h
      exact line_of_number hn
  · cases h
  · rename_i hk
    refine ⟨?_, by simp [hk]⟩
    unfold character at h
    split at h
    · cases h
    · cases h
      rfl
  · cases h
  · cases h

/-- The operand of a unary operator. -/
theorem unaryOpAt_of_beginsOperand {op : UnaryOp} {other : List Token}
    (h : UnaryOpAt (t :: rest) op rest) (hb : BeginsOperand other) :
    UnaryOpAt (t :: other) op other := by
  cases h with
  | negate ht => exact .negate ht
  | plus ht => exact .plus ht
  | not ht _ => exact .not ht hb

def parenthesesRest : Phrase :=
  (Phrase.of (ExprAt 0)).seq (.token (.symbol .rightParen))

theorem begins_parenthesesRest : parenthesesRest.Begins [] :=
  (begins_expr (Nat.zero_le 6)).seq_left (.inr (Phrase.apart_symbol (by simp)))
    (Phrase.begins_token rfl)

theorem of_parentheses (ts rest : List Token)
    (h : (Phrase.token (.symbol .leftParen)).seq parenthesesRest ts rest) :
    Phrase.of (ExprAt 6) ts rest := by
  obtain ⟨us, ⟨opening, ho, rfl⟩, vs, ⟨e, he⟩, closing, hc, rfl⟩ := h
  exact ⟨e, .parens ho he hc⟩

theorem settles_parenthesised (ht : t.kind = .symbol .leftParen)
    (hin : Settles (.of (ExprAt 0)) (fun stop ts => outcome (level stop BinaryOp.levels ts)) stop
      rest) :
    Settles (.of (ExprAt 6)) (fun stop ts => outcome (unary stop ts)) stop (t :: rest) := by
  have hread : ∀ stop' rest', outcome (unary stop' (t :: rest')) = parenthesised stop' t rest' := by
    intro stop' rest'
    have hop : unaryOp? t rest' = none :=
      unaryOp?_eq_none_of_kind (by simp [ht]) (by simp [ht]) (by simp [ht]) rest'
    rw [outcome_unary_of_none hop, outcome_primary]
    simp [literal?, ht]
  cases rest with
  | nil =>
    refine (Settles.lead ht (.fail begins_parenthesesRest fun stop' ts' halike => ?_)).mono
      of_parentheses
    obtain ⟨rfl, rfl⟩ := halike.eq_nil
    exact ⟨noOperand stop, hread stop [], line_noOperand stop⟩
  | cons r others =>
    by_cases hr : r.kind = .symbol .rightParen
    · -- Both parentheses are seen before the opening one is blamed.
      refine .fail (begins_expr (Nat.le_refl 6)) fun stop' ts' halike => ?_
      obtain ⟨us, rfl, hus⟩ := halike.exists_cons
      obtain ⟨vs, rfl, -⟩ := hus.exists_cons
      refine ⟨_, by rw [hread, parenthesised, if_pos hr], rfl⟩
    · have hrest : Settles parenthesesRest (fun stop ts =>
          outcome (level stop BinaryOp.levels ts) >>= fun inner =>
            outcome (expect stop (.symbol .rightParen) .closingParenthesis inner.last
              inner.rest) >>= fun close => .ok ⟨inner.value, close.last, close.rest⟩) stop
            (r :: others) := by
        refine hin.seq (.inr (Phrase.apart_symbol (by simp))) (Phrase.begins_token rfl)
          fun q hq => ?_
        dsimp only
        exact .map (.expect stop q.last _ _ q.rest rfl) fun _ _ _ _ => rfl
      refine (Settles.lead ht (hrest.congr fun stop' ts' halike => ?_)).mono of_parentheses
      obtain ⟨us, rfl, -⟩ := halike.exists_cons
      rw [hread, parenthesised, if_neg hr]

/-- A token that is an operand by itself. -/
theorem settles_atom {e : Expr} (hop : unaryOp? t rest = none)
    (hread : ∀ stop' rest', outcome (primary stop' t rest') = .ok ⟨e, t, rest'⟩)
    (hP : ∀ other, Follows rest other → ExprAt 6 (t :: other) e other) :
    Settles (.of (ExprAt 6)) (fun stop ts => outcome (unary stop ts)) stop (t :: rest) := by
  have hsub : ∀ stop' rest', Alike stop stop' 2 rest rest' →
      outcome (unary stop' (t :: rest')) = .ok ⟨e, t, rest'⟩ := by
    intro stop' rest' halike
    rw [outcome_unary_of_none ((unaryOp?_eq_of_alike halike).trans hop), hread]
  exact .cons (.stay e t (fun other hf => ⟨e, hP other hf⟩) fun _ _ _ => rfl) hsub

/-- A token that begins no operand. -/
theorem settles_nonOperand {d : Diagnostic} (hop : unaryOp? t rest = none)
    (hread : ∀ stop' rest', outcome (primary stop' t rest') = .error d)
    (hline : d.mark.line = t.line) (hb : t.kind ≠ .boolean) :
    Settles (.of (ExprAt 6)) (fun stop ts => outcome (unary stop ts)) stop (t :: rest) := by
  have hm : t.kind ≠ .symbol .minus := fun hk => by simp [unaryOp?, hk] at hop
  have hp : t.kind ≠ .symbol .plus := fun hk => by simp [unaryOp?, hk] at hop
  refine .fail (begins_expr (Nat.le_refl 6)) fun stop' ts' halike => ?_
  obtain ⟨us, rfl, -⟩ := halike.exists_cons
  refine ⟨d, ?_, hline⟩
  rw [outcome_unary_of_none (unaryOp?_eq_none_of_kind hm hp hb us), hread]

/-- An operand without a unary operator in front of it. -/
theorem settles_operand (hop : unaryOp? t rest = none)
    (hin : Settles (.of (ExprAt 0)) (fun stop ts => outcome (level stop BinaryOp.levels ts)) stop
      rest) :
    Settles (.of (ExprAt 6)) (fun stop ts => outcome (unary stop ts)) stop (t :: rest) := by
  cases hl : literal? t with
  | some value =>
    have hread : ∀ stop' rest', outcome (primary stop' t rest') =
        value >>= fun v => .ok ⟨.literal v t.mark, t, rest'⟩ := fun stop' rest' => by
      rw [outcome_primary, hl]
    cases value with
    | ok v =>
      refine settles_atom hop hread fun other hf => ?_
      refine .literal (literal?_eq_some_ok_iff.1 hl) fun hfalse hb => ?_
      rw [unaryOp?_eq_some_iff.2 (.not hfalse (hf.operand hb))] at hop
      cases hop
    | error d =>
      obtain ⟨hline, hb⟩ := line_of_literal? hl
      exact settles_nonOperand hop hread hline hb
  | none =>
    have hread := fun stop' rest' => outcome_primary stop' t rest'
    simp only [hl] at hread
    cases hk : t.kind with
    | identifier =>
      simp only [hk] at hread
      exact settles_atom hop hread fun other _ => .name hk
    | symbol s =>
      by_cases hs : s = .leftParen
      · exact settles_parenthesised (hs ▸ hk) hin
      · cases htext : symbolText? s with
        | some text =>
          have hatom : ∀ stop' rest', outcome (primary stop' t rest') =
              .ok ⟨.literal (.text text) t.mark, t, rest'⟩ := fun stop' rest' => by
            rw [hread, hk]
            cases s <;> first | contradiction | (cases htext; rfl)
          exact settles_atom hop hatom fun other _ =>
            .symbolText hk (symbolText?_eq_some_iff.1 htext)
        | none =>
          have hnot : ∀ stop' rest', outcome (primary stop' t rest') =
              .error (blame (.notExpression t.kind t.lexeme) t) := fun stop' rest' => by
            rw [hread, hk]
            cases s <;> first | contradiction | rfl
          exact settles_nonOperand hop hnot rfl (by simp [hk])
    | keyword w =>
      simp only [hk] at hread
      exact settles_nonOperand hop hread rfl (by simp [hk])
    | sourceEnd =>
      simp only [hk] at hread
      exact settles_nonOperand hop hread rfl (by simp [hk])
    | number | text | character | boolean => simp [literal?, hk] at hl

/-- An operand on the left whose tokens are known goes on with an operator and one on the right. -/
theorem binary_extend {k : Nat} {op : BinaryOp} {c us other : List Token} (hs : op.strength = k)
    (ht : t.kind = op.kind) (hl : (Phrase.of (ExprAt k)).Spells c (t :: rest))
    (hr : Phrase.of (ExprAt (k + 1)) (us ++ other) other) :
    Phrase.of (ExprAt k) (c ++ [t] ++ (us ++ other)) other := by
  have hname : t.kind ≠ .identifier := by
    rw [ht]
    cases op <;> simp [BinaryOp.kind]
  obtain ⟨r, hr⟩ := hr
  obtain ⟨l, hl⟩ := hl (t :: (us ++ other)) (.cons hname _ _)
  rw [List.append_assoc]
  exact ⟨.binary op l r ⟨⟨0, 0⟩, 0⟩, .binary hs ht hl hr⟩

/-- A unary operator goes on with an operand. -/
theorem unary_extend {op : UnaryOp} {us other : List Token} (hop : unaryOp? t rest = some op)
    (hb : BeginsOperand (us ++ other)) (h : Phrase.of (ExprAt 6) (us ++ other) other) :
    Phrase.of (ExprAt 6) ([t] ++ (us ++ other)) other := by
  obtain ⟨e, he⟩ := h
  have ho := unaryOpAt_of_beginsOperand (unaryOp?_eq_some_iff.1 hop) hb
  exact ⟨.unary op e ⟨⟨0, 0⟩, 0⟩, .unary ho he⟩

mutual

/-- Reading on a level settles the expressions of that level. -/
theorem settles_level {k : Nat} (hk : k ≤ 6) (stop : Token) (ts : List Token) :
    Settles (.of (ExprAt k)) (fun stop ts => outcome (level stop (BinaryOp.levels.drop k) ts)) stop
      ts := by
  rcases Nat.lt_or_ge k 6 with hlt | hge
  · have htighter : ∀ ts rest, Phrase.of (ExprAt (k + 1)) ts rest →
        Phrase.of (ExprAt k) ts rest := fun _ _ ⟨e, he⟩ => ⟨e, .tighter hlt he⟩
    simp only [BinaryOp.drop_levels hlt, outcome_level_cons]
    refine (settles_level (Nat.succ_le_of_lt hlt) stop ts).bind
      (fun _ h => h.mono htighter) fun q c hq hts hP => ?_
    exact settles_levelTail hlt stop (hP.mono htighter) q.value q.last
  · obtain rfl : k = 6 := Nat.le_antisymm hk hge
    have hdrop : BinaryOp.levels.drop 6 = [] := rfl
    simp only [hdrop, outcome_level_nil]
    exact settles_unary stop ts
termination_by 10 * ts.length + (6 - k) + 2
decreasing_by
  all_goals
    try have := rest_length_lt hq
    omega

/-- The operand on the left, whose tokens are known, and the further ones. -/
theorem settles_levelTail {k : Nat} (hk : k < 6) (stop : Token) {c ts : List Token}
    (hl : (Phrase.of (ExprAt k)).Spells c ts) (left : Expr) (last : Token) :
    Settles ((Phrase.of (ExprAt k)).after c) (fun stop ts => outcome (levelTail stop
      (BinaryOp.operators k) (BinaryOp.levels.drop (k + 1)) left last ts)) stop ts := by
  have hstay : ((Phrase.of (ExprAt k)).after c).Spells [] ts := by
    rwa [Phrase.spells_after, List.append_nil]
  cases ts with
  | nil =>
    refine .stay left last hstay fun stop' ts' halike => ?_
    obtain ⟨rfl, -⟩ := halike.eq_nil
    exact outcome_levelTail_nil ..
  | cons t rest =>
    cases hop : binaryOp? (BinaryOp.operators k) t with
    | none =>
      refine .stay left last hstay fun stop' ts' halike => ?_
      obtain ⟨us, rfl, -⟩ := halike.exists_cons
      exact outcome_levelTail_of_none hop
    | some op =>
      obtain ⟨ht, hs⟩ := binaryOp?_operators_eq_some_iff.1 hop
      have hbegins : ∀ before, (Phrase.of (ExprAt (k + 1))).Begins before →
          ((Phrase.of (ExprAt k)).after (c ++ [t])).Begins before := fun before h =>
        h.extend fun us other _ hr => binary_extend hs ht hl hr
      refine .cons ?_ fun stop' rest' _ => outcome_levelTail_of_some hop
      rw [Phrase.after_after]
      refine .require (hbegins [] (begins_expr (Nat.succ_le_of_lt hk))) fun _ => ?_
      refine (settles_level (Nat.succ_le_of_lt hk) stop rest).bind hbegins fun q d hq hrest hd => ?_
      have hl' : (Phrase.of (ExprAt k)).Spells (c ++ [t] ++ d) q.rest := fun other hf => by
        rw [List.append_assoc]
        exact binary_extend hs ht hl (hd other hf)
      rw [Phrase.after_after]
      dsimp only
      exact settles_levelTail hk stop hl' _ q.last
termination_by 10 * ts.length + (6 - (k + 1))
decreasing_by
  · subst_vars
    simp only [List.length_cons]
    omega
  · have := rest_length_lt hq
    subst_vars
    simp only [List.length_cons]
    omega

theorem settles_unary (stop : Token) (ts : List Token) :
    Settles (.of (ExprAt 6)) (fun stop ts => outcome (unary stop ts)) stop ts := by
  cases ts with
  | nil =>
    refine .fail (begins_expr (Nat.le_refl 6)) fun stop' ts' halike => ?_
    obtain ⟨rfl, -⟩ := halike.eq_nil
    exact ⟨_, outcome_unary_nil stop', line_noOperand stop'⟩
  | cons t rest =>
    cases hop : unaryOp? t rest with
    | none => exact settles_operand hop (settles_level (Nat.zero_le 6) stop rest)
    | some op =>
      have hbegins : ∀ before, (Phrase.of (ExprAt 6)).Begins before →
          ((Phrase.of (ExprAt 6)).after [t]).Begins before := fun before h =>
        h.extend fun us other hf ⟨e, he⟩ => unary_extend hop
          (he.beginsOperand fun heq => by cases hf.equal heq) ⟨e, he⟩
      refine .cons ?_ fun stop' rest' halike =>
        outcome_unary_of_some ((unaryOp?_eq_of_alike halike).trans hop)
      refine .require (hbegins [] (begins_expr (Nat.le_refl 6))) fun hb => ?_
      refine (settles_unary stop rest).bind hbegins fun q c hq hrest hc => ?_
      have hne : c ≠ [] := by
        rintro rfl
        have hlt := rest_length_lt hq
        simp [hrest] at hlt
      rw [hrest] at hb
      have hall : (((Phrase.of (ExprAt 6)).after [t]).after c).Spells [] q.rest := fun other hf =>
        unary_extend hop (hb.of_follows hne hf) (hc other hf)
      dsimp only
      exact .stay _ q.last hall fun _ _ _ => rfl
termination_by 10 * ts.length + 1
decreasing_by
  all_goals
    subst_vars
    simp only [List.length_cons]
    omega

end

/-- An expression is settled by its own tokens and two further ones. -/
theorem settles_expression (stop : Token) (ts : List Token) :
    Settles (.of (ExprAt 0)) (fun stop ts => outcome (expression stop ts)) stop ts :=
  settles_level (Nat.zero_le 6) stop ts

end BisayaPlus.Parse
