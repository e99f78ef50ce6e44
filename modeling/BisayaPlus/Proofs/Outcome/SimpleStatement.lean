import BisayaPlus.Proofs.Grammar
import BisayaPlus.Proofs.Outcome.Expression

/-!
The outcomes of the readers of simple statements and of the header of a loop.
-/

namespace BisayaPlus

namespace Parse

open Token

theorem atSymbol_eq_true_iff (s : Symbol) (ts : List Token) :
    atSymbol s ts = true ↔ front? ts = some (.symbol s) := by
  cases ts <;> simp [atSymbol, Token.isSymbol]

theorem outcome_expect_of_eq {stop last t : Token} {kind : Token.Kind} {what : Expectation}
    {rest : List Token} (h : t.kind = kind) :
    outcome (expect stop kind what last (t :: rest)) = .ok ⟨t, t, rest⟩ := by
  simp [expect, h, Parsed.reading]

/-- A token is taken if it is of the wanted kind. -/
theorem outcome_expect_eq_ok_iff {stop last : Token} {kind : Token.Kind} {what : Expectation}
    {ts : List Token} {q : Reading Token} :
    outcome (expect stop kind what last ts) = .ok q ↔
      ∃ t rest, ts = t :: rest ∧ t.kind = kind ∧ q = ⟨t, t, rest⟩ := by
  constructor
  · intro h
    cases ts with
    | nil => simp [expect] at h
    | cons t rest =>
      by_cases hk : t.kind = kind
      · rw [outcome_expect_of_eq hk] at h
        cases h
        exact ⟨t, rest, rfl, hk, rfl⟩
      · simp [expect, hk] at h
  · rintro ⟨t, rest, rfl, hk, rfl⟩
    exact outcome_expect_of_eq hk

theorem accepted_of_eq {t : Token} {kind : Token.Kind} {rest : List Token} (h : t.kind = kind) :
    accepted kind (t :: rest) = some ⟨t, t, rest⟩ := by
  simp [accepted, accept, h, Parsed.reading]

theorem accepted_of_ne {kind : Token.Kind} {ts : List Token} (h : front? ts ≠ some kind) :
    accepted kind ts = none := by
  cases ts with
  | nil => rfl
  | cons t rest =>
    have hk : t.kind ≠ kind := fun he => h (by simp [he])
    simp [accepted, accept, hk]

theorem accepted_eq_some_iff {kind : Token.Kind} {ts : List Token} {q : Reading Token} :
    accepted kind ts = some q ↔ ∃ t rest, ts = t :: rest ∧ t.kind = kind ∧ q = ⟨t, t, rest⟩ := by
  constructor
  · intro h
    cases ts with
    | nil => cases h
    | cons t rest =>
      by_cases hk : t.kind = kind
      · rw [accepted_of_eq hk] at h
        cases h
        exact ⟨t, rest, rfl, hk, rfl⟩
      · rw [accepted_of_ne (by simpa using hk)] at h
        cases h
  · rintro ⟨t, rest, rfl, hk, rfl⟩
    exact accepted_of_eq hk

/-- A reader of a list reads an item, and further items while a separator stands behind. -/
def ReadsList {α : Type} (separator : Token.Kind)
    (item : Token → List Token → Except Diagnostic (Reading α))
    (list : Token → List Token → Except Diagnostic (Reading (List α))) : Prop :=
  ∀ last ts, list last ts = item last ts >>= fun first =>
    match accepted separator first.rest with
    | none => .ok ⟨[first.value], first.last, first.rest⟩
    | some s =>
      list s.last s.rest >>= fun others =>
        .ok ⟨first.value :: others.value, others.last, others.rest⟩

theorem outcome_signedLiteral (stop last : Token) (factor : Option Number) (ts : List Token) :
    outcome (signedLiteral stop last factor ts) =
      match ts with
      | [] => .error (notLiteral (taken stop last []))
      | t :: rest =>
        match signedLiteral? factor t with
        | some value => value >>= fun v => .ok ⟨v, t, rest⟩
        | none => .error (notLiteral t) := by
  cases ts with
  | nil => rfl
  | cons t rest =>
    simp only [signedLiteral]
    rcases signedLiteral? factor t with _ | value
    · rfl
    · cases value <;> rfl

/-- A sign may precede an initial value, and is passed on to its literal. -/
theorem outcome_initialValue (stop last : Token) (ts : List Token) :
    outcome (initialValue stop last ts) =
      match ts with
      | [] => outcome (signedLiteral stop last none [])
      | t :: rest =>
        match factor? t with
        | some factor => outcome (signedLiteral stop t (some factor) rest)
        | none => outcome (signedLiteral stop last none (t :: rest)) := by
  cases ts with
  | nil => rfl
  | cons t rest =>
    simp only [initialValue]
    rcases factor? t with _ | factor
    · rfl
    · exact outcome_weaken _ _

/-- A declarator is a name, with an initial value if an equal sign follows. -/
theorem outcome_declarator (stop : Token) (type : DataType) (last : Token) (ts : List Token) :
    outcome (declarator stop type last ts) =
      outcome (expect stop .identifier (.declaredName type) last ts) >>= fun name =>
        match accepted (.symbol .equal) name.rest with
        | none => .ok ⟨⟨name.value.lexeme, none, name.value.mark⟩, name.last, name.rest⟩
        | some equal =>
          outcome (initialValue stop equal.last equal.rest) >>= fun initial =>
            .ok ⟨⟨name.value.lexeme, some initial.value,
              ⟨name.value.span.join initial.last.span, name.value.line⟩⟩,
              initial.last, initial.rest⟩ := by
  apply outcome_bind
  intro name
  dsimp only [accepted, Parsed.reading]
  cases accept (.symbol .equal) name.rest with
  | none => rfl
  | some equal => exact outcome_bind fun initial => rfl

theorem readsList_declarators (stop : Token) (type : DataType) :
    ReadsList (.symbol .comma) (fun last ts => outcome (declarator stop type last ts))
      (fun last ts => outcome (declarators stop type last ts)) := by
  intro last ts
  dsimp only
  rw [declarators]
  apply outcome_bind
  intro first
  dsimp only [accepted, Parsed.reading]
  cases accept (.symbol .comma) first.rest with
  | none => rfl
  | some comma => exact outcome_bind fun others => rfl

theorem outcome_declaration (single : Bool) (stop start : Token) (ts : List Token) :
    outcome (declaration single stop start ts) =
      match ts with
      | [] => .error (declaration.noType (taken stop start []))
      | t :: rest =>
        match DataType.ofKind? t.kind with
        | none => .error (declaration.noType t)
        | some type =>
          (if single then
            outcome (declarator stop type t rest) >>= fun d => .ok ⟨[d.value], d.last, d.rest⟩
          else
            outcome (declarators stop type t rest)) >>= fun list =>
          .ok ⟨.declaration type list.value (start.span.join list.last.span),
            list.last, list.rest⟩ := by
  cases ts with
  | nil => rfl
  | cons t rest =>
    cases ht : DataType.ofKind? t.kind with
    | none =>
      simp only [declaration, ht]
      rfl
    | some type =>
      cases single with
      | true =>
        simp only [declaration, ht, if_true]
        cases declarator stop type t rest <;> rfl
      | false =>
        simp only [declaration, ht]
        exact outcome_bind fun list => rfl

theorem furtherTargets_cons {t equal : Token} (rest : List Token) (last : Token)
    (ht : t.kind = .identifier) (he : equal.kind = .symbol .equal) :
    (furtherTargets last (t :: equal :: rest)).reading =
      ⟨t.lexeme :: (furtherTargets equal rest).value, (furtherTargets equal rest).last,
        (furtherTargets equal rest).rest⟩ := by
  rw [furtherTargets]
  simp [ht, he, Parsed.reading]

theorem front?_ne_of_not_exists {kind kind' : Token.Kind} {ts : List Token}
    (h : ¬∃ t rest, ts = t :: rest ∧ t.kind = kind ∧ front? rest = some kind') :
    ∀ t rest, ts = t :: rest → t.kind = kind → front? rest ≠ some kind' :=
  fun t rest hts ht hf => h ⟨t, rest, hts, ht, hf⟩

/-- The value of an assignment begins where no name with an equal sign stands. -/
theorem furtherTargets_of_ne {last : Token} {ts : List Token}
    (h : ∀ t rest, ts = t :: rest → t.kind = .identifier → front? rest ≠ some (.symbol .equal)) :
    (furtherTargets last ts).reading = ⟨[], last, ts⟩ := by
  match ts with
  | [] => rfl
  | [t] => rfl
  | t :: equal :: rest =>
    have hne : ¬(t.kind = .identifier ∧ equal.kind = .symbol .equal) := by
      rintro ⟨ht, he⟩
      exact h t (equal :: rest) rfl ht (by simp [he])
    rw [furtherTargets]
    simp [hne, Parsed.reading]

/-- An assignment has a first target, any further ones, and a value. -/
theorem outcome_assignment (stop last : Token) (ts : List Token) :
    outcome (assignment stop last ts) =
      outcome (expect stop .identifier .assignedName last ts) >>= fun first =>
        outcome (expect stop (.symbol .equal) (.equalSign first.value.lexeme) first.last
          first.rest) >>= fun equal =>
        outcome (expression stop (furtherTargets equal.last equal.rest).rest) >>= fun value =>
          .ok ⟨⟨first.value.lexeme :: (furtherTargets equal.last equal.rest).value, value.value,
            ⟨first.value.span.join value.value.mark.span, first.value.line⟩⟩,
            value.last, value.rest⟩ := by
  apply outcome_bind
  intro first
  apply outcome_bind
  intro equal
  exact outcome_bind fun value => rfl

theorem readsList_outputValues (stop : Token) :
    ReadsList (.symbol .ampersand) (fun _ ts => outcome (expression stop ts))
      (fun _ ts => outcome (outputValues stop ts)) := by
  intro last ts
  dsimp only
  rw [outputValues]
  apply outcome_bind
  intro first
  dsimp only [accepted, Parsed.reading]
  cases accept (.symbol .ampersand) first.rest with
  | none => rfl
  | some ampersand => exact outcome_bind fun others => rfl

theorem outcome_output (stop start : Token) (ts : List Token) :
    outcome (output stop start ts) =
      outcome (expect stop (.symbol .colon) .outputColon start ts) >>= fun colon =>
        outcome (outputValues stop colon.rest) >>= fun values =>
          .ok ⟨.output values.value (start.span.join values.last.span), values.last,
            values.rest⟩ := by
  apply outcome_bind
  intro colon
  exact outcome_bind fun values => rfl

def inputTarget (stop last : Token) (ts : List Token) : Except Diagnostic (Reading String) :=
  outcome (expect stop .identifier .inputName last ts) >>= fun t =>
    .ok ⟨t.value.lexeme, t.last, t.rest⟩

theorem rest_length_lt_of_inputTarget {stop last : Token} {ts : List Token} {q : Reading String}
    (h : inputTarget stop last ts = .ok q) : q.rest.length < ts.length := by
  obtain ⟨name, hname, h⟩ := Except.bind_eq_ok_iff.1 h
  cases h
  have hlt := rest_length_lt hname
  exact hlt

theorem readsList_inputTargets (stop : Token) :
    ReadsList (.symbol .comma) (inputTarget stop)
      (fun last ts => outcome (inputTargets stop last ts)) := by
  intro last ts
  dsimp only
  rw [inputTargets, inputTarget, bind_assoc]
  apply outcome_bind
  intro first
  dsimp only [accepted, Parsed.reading, Bind.bind, Except.bind]
  cases accept (.symbol .comma) first.rest with
  | none => rfl
  | some comma => exact outcome_bind fun others => rfl

theorem outcome_input (stop start : Token) (ts : List Token) :
    outcome (input stop start ts) =
      outcome (expect stop (.symbol .colon) .inputColon start ts) >>= fun colon =>
        outcome (inputTargets stop colon.last colon.rest) >>= fun names =>
          .ok ⟨.input names.value ⟨start.span.join names.last.span, start.line⟩, names.last,
            names.rest⟩ := by
  apply outcome_bind
  intro colon
  exact outcome_bind fun names => rfl

/-- A name and two plus signs are read as the increment of the name. -/
theorem outcome_loopIncrement_of_increment {name operator : Token} {rest : List Token}
    (stop last : Token) (hn : name.kind = .identifier) (ho : operator.kind = .symbol .increment) :
    outcome (loopIncrement stop last (name :: operator :: rest)) =
      .ok ⟨incrementOf name operator, operator, rest⟩ := by
  simp [loopIncrement, hn, ho, Parsed.reading]

theorem outcome_loopIncrement_of_ne {stop last : Token} {ts : List Token}
    (h : ∀ t rest, ts = t :: rest → t.kind = .identifier →
      front? rest ≠ some (.symbol .increment)) :
    outcome (loopIncrement stop last ts) = outcome (assignment stop last ts) := by
  match ts with
  | [] => rfl
  | [t] => rfl
  | name :: operator :: rest =>
    have hne : ¬(name.kind = .identifier ∧ operator.kind = .symbol .increment) := by
      rintro ⟨hn, ho⟩
      exact h name (operator :: rest) rfl hn (by simp [ho])
    simp [loopIncrement, hne]

theorem outcome_loopInitializer (stop last : Token) (ts : List Token) :
    outcome (loopInitializer stop last ts) =
      match accepted (.keyword .mugna) ts with
      | some start => outcome (declaration true stop start.value start.rest)
      | none =>
        if front? ts = some .identifier then
          outcome (assignment stop last ts) >>= fun a => .ok ⟨.assignment a.value, a.last, a.rest⟩
        else
          .error (blame (.notInitializer (next stop ts).lexeme) (next stop ts)) := by
  unfold accepted loopInitializer
  cases accept (.keyword .mugna) ts with
  | some start => exact outcome_weaken _ _
  | none =>
    have hfront : (accept .identifier ts).isSome = true ↔ front? ts = some .identifier := by
      cases ts with
      | nil => simp [accept]
      | cons t rest => by_cases hk : t.kind = .identifier <;> simp [accept, hk]
    by_cases hf : front? ts = some .identifier
    · simp only [hfront.2 hf, if_true]
      rw [if_pos hf]
      exact outcome_bind fun a => rfl
    · have hnot : ¬(accept .identifier ts).isSome = true := fun hs => hf (hfront.1 hs)
      simp only [hnot]
      rw [if_neg hf]
      rfl

/-- A loop has three clauses in parentheses, with commas between them. -/
theorem outcome_loopHeader (stop last : Token) (ts : List Token) :
    outcome (loopHeader stop last ts) =
      outcome (expect stop (.symbol .leftParen) .headerStart last ts) >>= fun start =>
        outcome (loopInitializer stop start.last start.rest) >>= fun initializer =>
        outcome (expect stop (.symbol .comma) .initializerComma initializer.last
          initializer.rest) >>= fun comma =>
        outcome (expression stop comma.rest) >>= fun condition =>
        outcome (expect stop (.symbol .comma) .conditionComma condition.last
          condition.rest) >>= fun comma' =>
        outcome (loopIncrement stop comma'.last comma'.rest) >>= fun increment =>
        outcome (expect stop (.symbol .rightParen) .headerEnd increment.last
          increment.rest) >>= fun close =>
        .ok ⟨⟨initializer.value, condition.value, increment.value⟩, close.last, close.rest⟩ := by
  apply outcome_bind
  intro start
  apply outcome_bind
  intro initializer
  apply outcome_bind
  intro comma
  apply outcome_bind
  intro condition
  apply outcome_bind
  intro comma'
  apply outcome_bind
  intro increment
  exact outcome_bind fun close => rfl

end Parse

end BisayaPlus
