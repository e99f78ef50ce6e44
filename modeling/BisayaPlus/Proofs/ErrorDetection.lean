import BisayaPlus.Proofs.Settling.Statement

/-!
Mistakes in a program are found at once. Up to the token that is blamed, all tokens begin some
program. Together with that token and the one behind it, they begin none.
-/

namespace BisayaPlus

open Token Parse Grammar

/-- Two bodies of programs are alike as far as their programs begin with the same tokens. -/
theorem Alike.of_take {n : Nat} {stop stop' : Token} {body body' after after' us : List Token}
    (hs : Program.endsBody stop = true) (hs' : Program.endsBody stop' = true)
    (hb : ∀ t ∈ body, Program.endsBody t = false) (hb' : ∀ t ∈ body', Program.endsBody t = false)
    (h : (body ++ stop :: after).take n ++ us = body' ++ stop' :: after') :
    Alike stop stop' n body body' := by
  induction n generalizing body body' with
  | zero => trivial
  | succ n ih =>
    cases body with
    | nil =>
      cases body' with
      | nil => exact (List.cons.inj h).1
      | cons t' body' =>
        obtain ⟨rfl, -⟩ := List.cons.inj h
        rw [hb' stop List.mem_cons_self] at hs
        cases hs
    | cons t body =>
      cases body' with
      | nil =>
        obtain ⟨rfl, -⟩ := List.cons.inj h
        rw [hb t List.mem_cons_self] at hs'
        cases hs'
      | cons t' body' =>
        obtain ⟨rfl, htail⟩ := List.cons.inj h
        exact ⟨rfl, ih (fun u hu => hb u (List.mem_cons_of_mem t hu))
          (fun u hu => hb' u (List.mem_cons_of_mem t hu)) htail⟩

theorem Grammar.Phrase.Spells.begins {P : Phrase} {c rest : List Token} (h : P.Spells c rest) :
    P.Begins c :=
  ⟨[], by simp, fun other hf => by simpa using h other (hf.of_nil rest)⟩

namespace Program

def body (start : Token) : Reader (List Stmt) := fun stop ts =>
  outcome (Parse.statements stop start ts) >>= fun q =>
    match q.rest with
    | t :: _ => .error (blame (.notStatement t.lexeme) t)
    | [] =>
      if stop.kind = .keyword .katapusan then
        .ok q
      else
        .error (unmet stop q.last .programEnd [])

/-- What is read of a program is its body, which ends at the first token that can end one. -/
theorem ofTokens_eq_body {start stop : Token} {ts after : List Token}
    (hk : start.kind = .keyword .sugod) (hs : endsBody stop = true)
    (hts : ∀ t ∈ ts, endsBody t = false) :
    ofTokens (start :: (ts ++ stop :: after)) = (body start stop ts).map fun q => ⟨q.value⟩ := by
  obtain ⟨hend, htake⟩ := bodyEnd_append start after hts hs
  rw [ofTokens, if_pos hk]
  unfold afterStart body
  simp only [hend]
  generalize (ts ++ stop :: after).takeWhile (!endsBody ·) = us at htake
  subst htake
  cases Parse.statements stop start us with
  | error d => rfl
  | ok q =>
    obtain ⟨ss, last, rest, hlt⟩ := q
    cases rest with
    | cons t others => rfl
    | nil =>
      by_cases hc : stop.kind = .keyword .katapusan <;> simp [hc, bind, Except.bind] <;> rfl

/-- The body of a program is settled as its statements are. -/
theorem settles_body (start stop : Token) (ts : List Token) :
    Settles (.of StatementsAt) (body start) stop ts := by
  unfold body
  refine (settles_statements stop start ts).bind (fun _ h => h) fun q c hq hts hc => ?_
  have hbegins : ((Phrase.of StatementsAt).after c).Begins [] :=
    Phrase.begins_after.2 (by simpa using hc.begins)
  cases hrest : q.rest with
  | cons t others =>
    refine .fail hbegins fun stop' ts' halike => ?_
    obtain ⟨us, rfl, -⟩ := halike.exists_cons
    exact ⟨blame (.notStatement t.lexeme) t, rfl, rfl⟩
  | nil =>
    by_cases hk : stop.kind = .keyword .katapusan
    · have hstay : ((Phrase.of StatementsAt).after c).Spells [] [] :=
        Phrase.spells_after.2 (by rwa [List.append_nil, ← hrest])
      refine .stay q.value q.last hstay fun stop' ts' halike => ?_
      obtain ⟨rfl, rfl⟩ := halike.eq_nil
      exact if_pos hk
    · refine .fail hbegins fun stop' ts' halike => ?_
      obtain ⟨rfl, rfl⟩ := halike.eq_nil
      refine ⟨unmet stop q.last .programEnd [], if_neg hk, ?_⟩
      rw [unmet]
      split <;> rfl

/-- The tokens end with the end of the source, which stands nowhere else among them. -/
def Terminated (ts : List Token) : Prop :=
  ∃ us last, ts = us ++ [last] ∧ last.kind = .sourceEnd ∧ ∀ t ∈ us, t.kind ≠ .sourceEnd

/-- The tokens begin a program. -/
def Viable (ts : List Token) : Prop :=
  ∃ us p, Terminated (ts ++ us) ∧ ofTokens (ts ++ us) = .ok p

/-- What begins something that begins a program begins a program. -/
theorem Viable.of_append {ts us : List Token} (h : Viable (ts ++ us)) : Viable ts := by
  obtain ⟨vs, p, hend, hp⟩ := h
  rw [List.append_assoc] at hend hp
  exact ⟨us ++ vs, p, hend, hp⟩

theorem exists_body {ts : List Token} (h : ∃ t ∈ ts, endsBody t = true) :
    ∃ body stop after, ts = body ++ stop :: after ∧ endsBody stop = true ∧
      ∀ t ∈ body, endsBody t = false := by
  obtain ⟨stop, hfind⟩ := Option.isSome_iff_exists.1 (List.find?_isSome.2 h)
  obtain ⟨hstop, body, after, hts, hbody⟩ := List.find?_eq_some_iff_append.1 hfind
  exact ⟨body, stop, after, hts, hstop, fun t ht => by simpa using hbody t ht⟩

theorem ne_sourceEnd_of_endsBody {t : Token} (h : endsBody t = false) : t.kind ≠ .sourceEnd := by
  intro hk
  simp [endsBody, hk] at h

/-- The first keyword and a beginning of statements begin a program. -/
theorem viable_of_begins {start : Token} {before : List Token} (hs : start.kind = .keyword .sugod)
    (hb : ∀ t ∈ before, endsBody t = false) (h : (Phrase.of StatementsAt).Begins before) :
    Viable (start :: before) := by
  obtain ⟨us, hus, hP⟩ := h
  obtain ⟨ss, hss⟩ := hP [] (.refl [])
  have hends : ∀ t ∈ before ++ us, endsBody t = false := List.forall_mem_append.2 ⟨hb, hus⟩
  have hclose : (Phrase.blank (.keyword .katapusan)).kind = .keyword .katapusan := rfl
  rw [List.append_nil] at hss
  obtain ⟨p, hp, -⟩ : ∃ p, ofTokens (start :: (before ++ us ++ Phrase.blank (.keyword .katapusan) ::
      [Phrase.blank .sourceEnd])) = .ok p ∧ _ := exists_ofTokens_eq_ok hs hclose hends hss
  refine ⟨us ++ [Phrase.blank (.keyword .katapusan), Phrase.blank .sourceEnd], p, ?_, ?_⟩
  · refine ⟨start :: (before ++ us ++ [Phrase.blank (.keyword .katapusan)]),
      Phrase.blank .sourceEnd, by simp, rfl, fun t ht => ?_⟩
    simp only [List.mem_cons, List.mem_append, List.not_mem_nil, or_false] at ht
    rcases ht with rfl | ht | rfl
    · simp [hs]
    · exact ne_sourceEnd_of_endsBody (hends t (List.mem_append.2 ht))
    · simp [hclose]
  · simpa using hp

theorem viable_nil : Viable [] := by
  have hstart : Viable ([] ++ [Phrase.blank (.keyword .sugod)]) :=
    viable_of_begins rfl (by simp) begins_statements
  exact hstart.of_append

theorem ofTokens_ne_ok_of_kind {start : Token} {ts : List Token} {p : Program}
    (hs : start.kind ≠ .keyword .sugod) : ofTokens (start :: ts) ≠ .ok p := by
  intro h
  obtain ⟨start', body, close, rest, last, hts, hs', -⟩ := ofTokens_eq_ok_iff.1 h
  obtain ⟨rfl, -⟩ := List.cons.inj hts
  exact hs hs'

/-- A body is refused on the line of a token, before which a program can still be written and with
which none can. -/
theorem exists_of_body_eq_error {start stop : Token} {ts after : List Token} {d : Diagnostic}
    (hk : start.kind = .keyword .sugod) (hs : endsBody stop = true)
    (hts : ∀ t ∈ ts, endsBody t = false) (h : body start stop ts = .error d) :
    ∃ k t, (start :: (ts ++ stop :: after))[k]? = some t ∧ d.mark.line = t.line ∧
      Viable ((start :: (ts ++ stop :: after)).take k) ∧
      ∀ us p, ofTokens ((start :: (ts ++ stop :: after)).take (k + 2) ++ us) ≠ .ok p := by
  obtain ⟨before, t, others, hbefore, hline, hbegins, hstable⟩ :=
    (settles_body start stop ts).error d h
  have hall : start :: (ts ++ stop :: after) = start :: before ++ t :: (others ++ after) := by
    have happend := congrArg (fun us => start :: (us ++ after)) hbefore
    simpa using happend
  have hends : ∀ u ∈ before, endsBody u = false := by
    have hdrop := congrArg List.dropLast hbefore
    rw [List.dropLast_concat, List.dropLast_append_cons] at hdrop
    intro u hu
    exact hts u (hdrop ▸ List.mem_append_left _ hu)
  refine ⟨before.length + 1, t, ?_, hline, ?_, fun us p hp => ?_⟩
  · rw [hall]
    simp
  · rw [hall]
    simpa using viable_of_begins hk hends hbegins
  · obtain ⟨start', ts', stop', after', last, heq, hk', hs', hts', hread⟩ := ofTokens_eq_ok_iff.1 hp
    obtain ⟨rfl, htail⟩ := List.cons.inj heq
    have hstop' : endsBody stop' = true := by simp [endsBody, hs']
    obtain ⟨d', hd'⟩ := hstable stop' ts' (.of_take hs hstop' hts hts' htail)
    rw [heq, ofTokens_eq_body hk hstop' hts', hd'] at hp
    cases hp

/-- If a list of tokens that ends with the end of the source is not read as a program, then there
is a token that the error is on the line of, such that the tokens in front of it begin a program,
but with this token and the next one behind them they begin none. -/
theorem viable_take_of_ofTokens_eq_error {ts : List Token} {d : Diagnostic} (hts : Terminated ts)
    (h : ofTokens ts = .error d) :
    ∃ k t, ts[k]? = some t ∧ d.mark.line = t.line ∧ Viable (ts.take k) ∧
      ∀ us p, ofTokens (ts.take (k + 2) ++ us) ≠ .ok p := by
  obtain ⟨us, last, rfl, hlast, hus⟩ := hts
  cases hcons : us ++ [last] with
  | nil => simp at hcons
  | cons start rest =>
    rw [hcons] at h
    by_cases hs : start.kind = .keyword .sugod
    · have hmem : last ∈ start :: rest := hcons ▸ List.mem_append_right us List.mem_cons_self
      have hrest : last ∈ rest := by
        rcases List.mem_cons.1 hmem with rfl | hmem
        · simp [hs] at hlast
        · exact hmem
      obtain ⟨body', stop, after, rfl, hstop, hbody⟩ :=
        exists_body ⟨last, hrest, by simp [endsBody, hlast]⟩
      rw [ofTokens_eq_body hs hstop hbody] at h
      cases hr : body start stop body' with
      | error d' =>
        rw [hr] at h
        cases h
        exact exists_of_body_eq_error hs hstop hbody hr
      | ok q =>
        rw [hr] at h
        cases h
    · refine ⟨0, start, rfl, ?_, ?_, fun us p => ofTokens_ne_ok_of_kind hs⟩
      · rw [ofTokens, if_neg hs] at h
        split at h <;> cases h <;> rfl
      · exact viable_nil

def emptyParentheses : List Token :=
  [⟨.keyword .sugod, "SUGOD", ⟨0, 5⟩, 1⟩, ⟨.identifier, "x", ⟨6, 7⟩, 2⟩,
    ⟨.symbol .equal, "=", ⟨7, 8⟩, 2⟩, ⟨.symbol .leftParen, "(", ⟨8, 9⟩, 2⟩,
    ⟨.symbol .rightParen, ")", ⟨10, 11⟩, 3⟩, ⟨.keyword .katapusan, "KATAPUSAN", ⟨12, 21⟩, 4⟩,
    ⟨.sourceEnd, "", ⟨21, 21⟩, 4⟩]

/-- The opening parenthesis is blamed, though it is the closing one that no program goes on
with. -/
theorem viable_take_emptyParentheses :
    Terminated emptyParentheses ∧
      ofTokens emptyParentheses = .error ⟨.grammatical .emptyParentheses, ⟨⟨8, 11⟩, 2⟩⟩ ∧
      ∃ k t, emptyParentheses[k]? = some t ∧ 2 = t.line ∧ Viable (emptyParentheses.take k) ∧
        ∀ us p, ofTokens (emptyParentheses.take (k + 2) ++ us) ≠ .ok p := by
  have hterminated : Terminated emptyParentheses :=
    ⟨emptyParentheses.dropLast, _, rfl, rfl, by simp [emptyParentheses]⟩
  have herror : ofTokens emptyParentheses =
      .error ⟨.grammatical .emptyParentheses, ⟨⟨8, 11⟩, 2⟩⟩ := by cbv
  exact ⟨hterminated, herror, viable_take_of_ofTokens_eq_error hterminated herror⟩

end Program

end BisayaPlus
