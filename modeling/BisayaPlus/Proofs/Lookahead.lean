import BisayaPlus.Proofs.Phrase

/-!
How far readers look ahead. A reader that succeeds has looked at no more than two tokens behind
what it took. A reader that fails blames a token in front of which all could still be completed,
and has looked at no more than the token behind that one. Both are kept when readers are put
together from others.
-/

namespace BisayaPlus

open Token Grammar

/-- Two lists of tokens in front of their stops are the same in their first `n` tokens, of which
the stop may be the last. -/
def Alike (stop stop' : Token) : Nat → List Token → List Token → Prop
  | 0, _, _ => True
  | _ + 1, [], [] => stop = stop'
  | n + 1, t :: ts, t' :: ts' => t = t' ∧ Alike stop stop' n ts ts'
  | _ + 1, _, _ => False

namespace Alike

variable {stop stop' t : Token} {m n : Nat} {ts ts' rest rest' : List Token}

theorem refl (stop : Token) (n : Nat) (ts : List Token) : Alike stop stop n ts ts := by
  induction n generalizing ts with
  | zero => trivial
  | succ n ih =>
    cases ts with
    | nil => exact rfl
    | cons t ts => exact ⟨rfl, ih ts⟩

theorem mono (h : Alike stop stop' n ts ts') (hle : m ≤ n) : Alike stop stop' m ts ts' := by
  induction m generalizing n ts ts' with
  | zero => trivial
  | succ m ih =>
    cases n with
    | zero => cases hle
    | succ n =>
      match ts, ts', h with
      | [], [], h => exact h
      | t :: ts, t' :: ts', h => exact ⟨h.1, ih h.2 (Nat.le_of_succ_le_succ hle)⟩

theorem append (c : List Token) (h : Alike stop stop' n rest rest') :
    Alike stop stop' (c.length + n) (c ++ rest) (c ++ rest') := by
  induction c with
  | nil => simpa using h
  | cons t c ih =>
    rw [List.length_cons, Nat.add_right_comm]
    exact And.intro rfl ih

theorem append_of_le {c : List Token} (h : Alike stop stop' n rest rest') :
    Alike stop stop' n (c ++ rest) (c ++ rest') :=
  (h.append c).mono (Nat.le_add_left n c.length)

/-- A list that is alike begins with the same tokens. -/
theorem exists_append {c : List Token} (h : Alike stop stop' (c.length + n) (c ++ rest) ts') :
    ∃ rest', ts' = c ++ rest' ∧ Alike stop stop' n rest rest' := by
  induction c generalizing ts' with
  | nil => exact ⟨ts', rfl, by simpa using h⟩
  | cons t c ih =>
    rw [List.length_cons, Nat.add_right_comm] at h
    match ts', h with
    | t' :: ts', h =>
      obtain ⟨rfl, htail⟩ := h
      obtain ⟨rest', rfl, hrest⟩ := ih htail
      exact ⟨rest', rfl, hrest⟩

theorem exists_cons (h : Alike stop stop' (n + 1) (t :: ts) ts') :
    ∃ us, ts' = t :: us ∧ Alike stop stop' n ts us := by
  match ts', h with
  | t' :: us, h =>
    obtain ⟨rfl, h⟩ := h
    exact ⟨us, rfl, h⟩

theorem eq_nil (h : Alike stop stop' (n + 1) [] ts') : ts' = [] ∧ stop = stop' := by
  match ts', h with
  | [], h => exact ⟨rfl, h⟩

theorem front?_eq (h : Alike stop stop' (n + 1) ts ts') : front? ts = front? ts' := by
  cases ts with
  | nil =>
    obtain ⟨rfl, -⟩ := h.eq_nil
    rfl
  | cons t ts =>
    obtain ⟨us, rfl, -⟩ := h.exists_cons
    rfl

/-- A token of one kind with one of another kind behind it is seen in both lists or in none. -/
theorem front?_ne {kind kind' : Token.Kind} (h : Alike stop stop' (n + 2) ts ts')
    (hts : ¬∃ t rest, ts = t :: rest ∧ t.kind = kind ∧ front? rest = some kind') :
    ∀ t rest, ts' = t :: rest → t.kind = kind → front? rest ≠ some kind' := by
  rintro t rest rfl ht hf
  cases ts with
  | nil => cases h.eq_nil.1
  | cons u us =>
    obtain ⟨_, heq, hus⟩ := h.exists_cons
    obtain ⟨rfl, rfl⟩ := List.cons.inj heq
    exact hts ⟨_, us, rfl, ht, hus.front?_eq.trans hf⟩

/-- Two tokens tell whether an operand begins. -/
theorem startsOperand_eq (h : Alike stop stop' (n + 2) ts ts') :
    Parse.startsOperand ts = Parse.startsOperand ts' := by
  cases ts with
  | nil =>
    obtain ⟨rfl, -⟩ := h.eq_nil
    rfl
  | cons t ts =>
    obtain ⟨us, rfl, hus⟩ := h.exists_cons
    have hat : Parse.atSymbol .equal ts = Parse.atSymbol .equal us := by
      rw [Bool.eq_iff_iff, Parse.atSymbol_eq_true_iff, Parse.atSymbol_eq_true_iff, hus.front?_eq]
    rw [Parse.startsOperand, Parse.startsOperand, hat]

end Alike

abbrev Reader (α : Type) :=
  Token → List Token → Except Diagnostic (Reading α)

/-- What a reader of a phrase does with some tokens depends on no more than it should. -/
structure Settles {α : Type} (P : Phrase) (read : Reader α) (stop : Token) (ts : List Token) :
    Prop where
  ok : ∀ q, read stop ts = .ok q → ∃ taken, ts = taken ++ q.rest ∧ P.Spells taken q.rest ∧
    ∀ stop' rest', Alike stop stop' 2 q.rest rest' →
      read stop' (taken ++ rest') = .ok ⟨q.value, q.last, rest'⟩
  error : ∀ d, read stop ts = .error d → ∃ before t after, ts ++ [stop] = before ++ t :: after ∧
    d.mark.line = t.line ∧ P.Begins before ∧
    ∀ stop' ts', Alike stop stop' (before.length + 2) ts ts' → ∃ d', read stop' ts' = .error d'

namespace Settles

open Parse

variable {α β : Type} {P Q R : Phrase} {read read' : Reader α} {stop t : Token}
  {ts rest : List Token}

theorem mono (h : Settles P read stop ts) (hPQ : ∀ ts rest, P ts rest → Q ts rest) :
    Settles Q read stop ts where
  ok q hq := by
    obtain ⟨taken, hts, hP, hstable⟩ := h.ok q hq
    exact ⟨taken, hts, hP.mono hPQ, hstable⟩
  error d hd := by
    obtain ⟨before, t, after, hts, hline, hP, hstable⟩ := h.error d hd
    exact ⟨before, t, after, hts, hline, hP.mono hPQ, hstable⟩

/-- What a reader does with no tokens shows that the phrase can begin. -/
theorem begins (h : Settles P read stop []) : P.Begins [] := by
  cases hr : read stop [] with
  | ok q =>
    obtain ⟨taken, hts, hP, -⟩ := h.ok q hr
    obtain ⟨rfl, hrest⟩ := List.append_eq_nil_iff.1 hts.symm
    rw [hrest] at hP
    exact ⟨[], by simp, hP⟩
  | error d =>
    obtain ⟨before, t, after, hts, -, hP, -⟩ := h.error d hr
    have hlength := congrArg List.length hts
    simp only [List.length_append, List.length_cons, List.length_nil] at hlength
    obtain rfl : before = [] := List.length_eq_zero_iff.1 (by omega)
    exact hP

/-- Two readers that agree wherever the first two tokens are these. -/
theorem congr (h : Settles P read stop ts)
    (heq : ∀ stop' ts', Alike stop stop' 2 ts ts' → read' stop' ts' = read stop' ts') :
    Settles P read' stop ts where
  ok q hq := by
    rw [heq stop ts (.refl stop 2 ts)] at hq
    obtain ⟨taken, hts, hP, hstable⟩ := h.ok q hq
    refine ⟨taken, hts, hP, fun stop' rest' hrest => ?_⟩
    rw [heq stop' _ (hts ▸ hrest.append_of_le)]
    exact hstable stop' rest' hrest
  error d hd := by
    rw [heq stop ts (.refl stop 2 ts)] at hd
    obtain ⟨before, t, after, hts, hline, hP, hstable⟩ := h.error d hd
    refine ⟨before, t, after, hts, hline, hP, fun stop' ts' halike => ?_⟩
    rw [heq stop' ts' (halike.mono (Nat.le_add_left 2 _))]
    exact hstable stop' ts' halike

/-- After a token, the rest is read in a way that the next two tokens tell. -/
theorem cons {sub : Reader α} (h : Settles (P.after [t]) sub stop rest)
    (heq : ∀ stop' rest', Alike stop stop' 2 rest rest' →
      read stop' (t :: rest') = sub stop' rest') : Settles P read stop (t :: rest) where
  ok q hq := by
    rw [heq stop rest (.refl stop 2 rest)] at hq
    obtain ⟨taken, hts, hP, hstable⟩ := h.ok q hq
    refine ⟨t :: taken, by rw [hts]; rfl, Phrase.spells_after.1 hP, fun stop' rest' hrest => ?_⟩
    rw [List.cons_append, heq stop' _ (hts ▸ hrest.append_of_le)]
    exact hstable stop' rest' hrest
  error d hd := by
    rw [heq stop rest (.refl stop 2 rest)] at hd
    obtain ⟨before, u, after, hts, hline, hP, hstable⟩ := h.error d hd
    refine ⟨t :: before, u, after, by rw [List.cons_append, hts]; rfl, hline,
      Phrase.begins_after.1 hP, fun stop' ts' halike => ?_⟩
    rw [List.length_cons, Nat.add_right_comm] at halike
    obtain ⟨us, rfl, hus⟩ := halike.exists_cons
    rw [heq stop' us (hus.mono (Nat.le_add_left 2 _))]
    exact hstable stop' us hus

/-- Nothing is taken. -/
theorem stay (v : α) (last : Token) (hP : P.Spells [] ts)
    (h : ∀ stop' ts', Alike stop stop' 2 ts ts' → read stop' ts' = .ok ⟨v, last, ts'⟩) :
    Settles P read stop ts where
  ok q hq := by
    rw [h stop ts (.refl stop 2 ts)] at hq
    cases hq
    exact ⟨[], rfl, hP, h⟩
  error d hd := by
    rw [h stop ts (.refl stop 2 ts)] at hd
    cases hd

/-- The reader fails and blames the next token. -/
theorem fail (hP : P.Begins []) (h : ∀ stop' ts', Alike stop stop' 2 ts ts' →
    ∃ d, read stop' ts' = .error d ∧ d.mark.line = (next stop' ts').line) :
    Settles P read stop ts := by
  obtain ⟨d, hd, hline⟩ := h stop ts (.refl stop 2 ts)
  constructor
  · intro q hq
    rw [hd] at hq
    cases hq
  · intro d' hd'
    obtain rfl : d = d' := Except.error.inj (hd.symm.trans hd')
    refine ⟨[], next stop ts, (ts ++ [stop]).tail, ?_, hline, hP, fun stop' ts' halike => ?_⟩
    · cases ts <;> rfl
    · obtain ⟨d', hd', -⟩ := h stop' ts' halike
      exact ⟨d', hd'⟩

/-- The reader fails at the stop. If the stop is the end of the source, it blames the token in
front of it. -/
theorem fail_at_stop (hP : P.Begins []) (hPt : P.Begins [t])
    (h : ∀ stop', ∃ d, read stop' [t] = .error d ∧ d.mark.line = (taken stop' t []).line) :
    Settles P read stop [t] := by
  obtain ⟨d, hd, hline⟩ := h stop
  constructor
  · intro q hq
    rw [hd] at hq
    cases hq
  · intro d' hd'
    obtain rfl : d = d' := Except.error.inj (hd.symm.trans hd')
    have hstable : ∀ n stop' ts', Alike stop stop' (n + 2) [t] ts' →
        ∃ d', read stop' ts' = .error d' := by
      intro n stop' ts' halike
      obtain ⟨us, rfl, hnil⟩ := halike.exists_cons
      obtain ⟨rfl, -⟩ := hnil.eq_nil
      obtain ⟨d', hd', -⟩ := h stop'
      exact ⟨d', hd'⟩
    rw [taken] at hline
    split at hline
    · exact ⟨[], t, [stop], rfl, hline, hP, hstable 0⟩
    · exact ⟨[t], stop, [], rfl, hline, hPt, hstable 1⟩

/-- One reader and then another that goes on behind it. -/
theorem bind {x : Reader β} {f : Token → Reading β → Except Diagnostic (Reading α)}
    (hx : Settles P x stop ts) (hleft : ∀ before, P.Begins before → Q.Begins before)
    (hf : ∀ q c, x stop ts = .ok q → ts = c ++ q.rest → P.Spells c q.rest →
      Settles (Q.after c) (fun stop' ts' => f stop' ⟨q.value, q.last, ts'⟩) stop q.rest) :
    Settles Q (fun stop' ts' => x stop' ts' >>= f stop') stop ts := by
  cases hr : x stop ts with
  | error d =>
    obtain ⟨before, t, after, hts, hline, hP, hstable⟩ := hx.error d hr
    constructor
    · intro q hq
      rw [hr] at hq
      cases hq
    · intro d' hd'
      rw [hr] at hd'
      cases hd'
      refine ⟨before, t, after, hts, hline, hleft before hP, fun stop' ts' halike => ?_⟩
      obtain ⟨d', hd'⟩ := hstable stop' ts' halike
      rw [hd']
      exact ⟨d', rfl⟩
  | ok q =>
    obtain ⟨c, hts, hP, hstable⟩ := hx.ok q hr
    obtain ⟨hok, herror⟩ := hf q c hr hts hP
    constructor
    · intro p hp
      rw [hr] at hp
      obtain ⟨taken, hrest, hQ, hstable'⟩ := hok p hp
      refine ⟨c ++ taken, by rw [hts, hrest, List.append_assoc], Phrase.spells_after.1 hQ,
        fun stop' rest' halike => ?_⟩
      rw [List.append_assoc, hstable stop' _ (hrest ▸ halike.append_of_le)]
      exact hstable' stop' rest' halike
    · intro d hd
      rw [hr] at hd
      obtain ⟨before, t, after, hrest, hline, hQ, hstable'⟩ := herror d hd
      refine ⟨c ++ before, t, after, by rw [hts, List.append_assoc, hrest, List.append_assoc],
        hline, Phrase.begins_after.1 hQ, fun stop' ts' halike => ?_⟩
      rw [hts, List.length_append, Nat.add_assoc] at halike
      obtain ⟨rest', rfl, hrest'⟩ := halike.exists_append
      rw [hstable stop' rest' (hrest'.mono (Nat.le_add_left 2 _))]
      exact hstable' stop' rest' hrest'

/-- One phrase and then another, each with its reader. -/
theorem seq {x : Reader β} {f : Token → Reading β → Except Diagnostic (Reading α)}
    (hm : P.Meets R) (hR : R.Begins []) (hx : Settles P x stop ts)
    (hf : ∀ q, x stop ts = .ok q →
      Settles R (fun stop' ts' => f stop' ⟨q.value, q.last, ts'⟩) stop q.rest) :
    Settles (P.seq R) (fun stop' ts' => x stop' ts' >>= f stop') stop ts := by
  refine hx.bind (fun before hP => hP.seq_left hm hR) fun q c hq hts hP => ?_
  have h := hf q hq
  constructor
  · intro p hp
    obtain ⟨taken, hrest, hR', hstable⟩ := h.ok p hp
    refine ⟨taken, hrest, ?_, hstable⟩
    rw [hrest] at hP
    exact Phrase.spells_after.2 (hP.seq hm hR')
  · intro d hd
    obtain ⟨before, t, after, hrest, hline, hR', hstable⟩ := h.error d hd
    exact ⟨before, t, after, hrest, hline, Phrase.begins_after.2 (hR'.seq_right hm hP), hstable⟩

/-- The value of a reader may be turned into another. -/
theorem map {x : Reader β} {g : Reading β → α} (hx : Settles P x stop ts)
    (hg : ∀ v last rest rest', g ⟨v, last, rest⟩ = g ⟨v, last, rest'⟩) :
    Settles P (fun stop' ts' => x stop' ts' >>= fun q => .ok ⟨g q, q.last, q.rest⟩) stop ts := by
  refine hx.bind (fun _ hP => hP) fun q c hq hts hP => ?_
  have hP' : (P.after c).Spells [] q.rest := Phrase.spells_after.2 (by rwa [List.append_nil])
  have hread : ∀ ts', (.ok ⟨g ⟨q.value, q.last, ts'⟩, q.last, ts'⟩ :
      Except Diagnostic (Reading α)) = .ok ⟨g q, q.last, ts'⟩ := fun ts' => by
    rw [hg q.value q.last ts' q.rest]
  exact stay (g q) q.last hP' fun _ ts' _ => hread ts'

/-- One token is read, and what it gives depends on no other. -/
theorem single {x : Except Diagnostic β} {g : β → α} (hP : P.Begins [])
    (hread : ∀ stop' rest', read stop' (t :: rest') = x >>= fun v => .ok ⟨g v, t, rest'⟩)
    (hvalue : ∀ v, x = .ok v → ∀ other, P (t :: other) other)
    (herror : ∀ d, x = .error d → d.mark.line = t.line) : Settles P read stop (t :: rest) := by
  cases hx : x with
  | ok v =>
    have hstay : Settles (P.after [t]) (fun _ ts => .ok ⟨g v, t, ts⟩) stop rest :=
      stay (g v) t (fun other _ => hvalue v hx other) fun _ _ _ => rfl
    exact cons hstay fun stop' rest' _ => by rw [hread, hx]; rfl
  | error d =>
    refine fail hP fun stop' ts' halike => ?_
    obtain ⟨us, rfl, -⟩ := halike.exists_cons
    exact ⟨d, by rw [hread, hx]; rfl, herror d hx⟩

/-- Whether a token is of the wanted kind is settled by the token itself. -/
theorem expect (stop last : Token) (kind : Token.Kind) (what : Expectation) (ts : List Token)
    (hkind : Program.endsBody (Phrase.blank kind) = false) :
    Settles (.token kind) (fun stop ts => outcome (Parse.expect stop kind what last ts)) stop
      ts := by
  by_cases hfront : front? ts = some kind
  · cases ts with
    | nil => cases hfront
    | cons t rest =>
      have hk : t.kind = kind := Option.some.inj hfront
      have hread : ∀ stop' rest', outcome (Parse.expect stop' kind what last (t :: rest')) =
          Except.ok t >>= fun v => .ok ⟨v, t, rest'⟩ := fun _ _ => outcome_expect_of_eq hk
      refine single (Phrase.begins_token hkind) hread (fun _ _ other => ⟨t, hk, rfl⟩) ?_
      intro d hd
      cases hd
  · refine fail (Phrase.begins_token hkind) fun stop' ts' halike => ?_
    rw [halike.front?_eq] at hfront
    refine ⟨unmet stop' last what ts', ?_, ?_⟩
    · cases ts' with
      | nil => rfl
      | cons t rest =>
        have hne : t.kind ≠ kind := fun hk => hfront (by simp [hk])
        simp [Parse.expect, hne]
    · cases ts' with
      | nil =>
        rw [unmet]
        split <;> rfl
      | cons t rest => rfl

/-- A token of a kind and then a phrase. -/
theorem expect_seq {kind : Token.Kind} {what : Expectation} {last : Token}
    {f : Token → Reading Token → Except Diagnostic (Reading α)}
    (hkind : Program.endsBody (Phrase.blank kind) = false) (hR : R.Begins [])
    (hf : ∀ t rest, ts = t :: rest → Settles R (fun stop' ts' => f stop' ⟨t, t, ts'⟩) stop rest) :
    Settles ((Phrase.token kind).seq R)
      (fun stop' ts' => outcome (Parse.expect stop' kind what last ts') >>= f stop') stop ts := by
  refine (expect stop last kind what ts hkind).seq (.inl (Phrase.free_token kind)) hR
    fun q hq => ?_
  obtain ⟨t, rest, hts, -, rfl⟩ := outcome_expect_eq_ok_iff.1 hq
  exact hf t rest hts

/-- The token that a phrase begins with is known, and the others are read. -/
theorem lead {p : Token → Prop} (ht : p t)
    (h : Settles R (fun stop' ts' => read stop' (t :: ts')) stop rest) :
    Settles ((Phrase.one p).seq R) read stop (t :: rest) := by
  have hafter : ∀ ts rest, R ts rest → (((Phrase.one p).seq R).after [t]) ts rest :=
    fun ts _ hR => ⟨ts, ⟨t, ht, rfl⟩, hR⟩
  exact cons (h.mono hafter) fun _ _ _ => rfl

/-- The reader fails if the stop comes right behind the known token. -/
theorem lead_of_fail_at_stop {kind : Token.Kind} (ht : t.kind = kind)
    (hkind : Program.endsBody (Phrase.blank kind) = false) (hR : R.Begins [])
    (hnil : ∀ stop', ∃ d, read stop' [t] = .error d ∧ d.mark.line = (taken stop' t []).line)
    (hcons : ∀ u us, rest = u :: us →
      Settles R (fun stop' ts' => read stop' (t :: ts')) stop rest) :
    Settles ((Phrase.token kind).seq R) read stop (t :: rest) := by
  cases rest with
  | nil =>
    exact fail_at_stop (Phrase.begins_token_seq hkind hR)
      (.seq_right (.inl (Phrase.free_token kind)) (Phrase.spells_token ht []) hR) hnil
  | cons u us => exact lead ht (hcons u us rfl)

/-- An operator fails if no operand begins behind it. -/
theorem require {operator : Token} (hP : P.Begins [])
    (h : BeginsOperand ts → Settles P read stop ts) :
    Settles P (fun stop' ts' => requireOperand stop' operator ts' >>= fun _ => read stop' ts') stop
      ts := by
  cases hs : startsOperand ts with
  | true =>
    refine (h (startsOperand_iff.1 hs)).congr fun stop' ts' halike => ?_
    rw [halike.startsOperand_eq] at hs
    rw [requireOperand_eq_ok_iff.2 (startsOperand_iff.1 hs)]
    rfl
  | false =>
    refine fail hP fun stop' ts' halike => ?_
    rw [halike.startsOperand_eq] at hs
    refine ⟨_, by rw [requireOperand, hs]; rfl, rfl⟩

/-- A phrase that is there if its first token is. -/
theorem optional (kind : Token.Kind) (v : α) (last : Token)
    (hnone : ∀ stop' ts', front? ts' ≠ some kind → read stop' ts' = .ok ⟨v, last, ts'⟩)
    (hsome : ∀ t rest, t.kind = kind → ts = t :: rest → Settles P read stop ts) :
    Settles P.optional read stop ts := by
  by_cases hfront : front? ts = some kind
  · cases ts with
    | nil => cases hfront
    | cons t rest =>
      exact (hsome t rest (Option.some.inj hfront) rfl).mono fun _ _ h => .inr h
  · refine stay v last (fun _ _ => .inl rfl) fun stop' ts' halike => hnone stop' ts' ?_
    rwa [← halike.front?_eq]

end Settles

end BisayaPlus
