import BisayaPlus.Proofs.Settling.Expression

/-!
The readers of simple statements and of the header of a loop settle.
-/

namespace BisayaPlus.Parse

open Token Grammar

variable {stop last t : Token} {ts rest : List Token}

def unsigned : Phrase :=
  .one fun t => ∃ n, Literal t (.number n)

theorem begins_unsigned : unsigned.Begins [] := by
  have hzero : Literal ⟨.number, "0", ⟨0, 0⟩, 0⟩ (.number (.zero false)) :=
    .number rfl (by decide) rfl
  exact ⟨[_], by simp [Program.endsBody], fun other _ => ⟨_, ⟨_, hzero⟩, rfl⟩⟩

theorem line_of_signedLiteral? {factor : Option Number} {d : Diagnostic}
    (h : signedLiteral? factor t = some (.error d)) : d.mark.line = t.line := by
  unfold signedLiteral? at h
  split at h
  · cases hn : number t with
    | ok n =>
      rw [hn] at h
      cases h
    | error d' =>
      rw [hn] at h
      cases h
      exact line_of_number hn
  split at h
  · cases h
  · exact (line_of_literal? h).1

/-- The reader of a literal settles for a phrase that its value is a reading of. -/
theorem settles_signedLiteral {phrase : Phrase} (hbegins : phrase.Begins [])
    {factor : Option Number}
    (hvalue : ∀ v, signedLiteral? factor t = some (.ok v) → ∀ other, phrase (t :: other) other)
    (stop last : Token) (rest : List Token) :
    Settles phrase (fun stop ts => outcome (signedLiteral stop last factor ts)) stop
      (t :: rest) := by
  have hread : ∀ stop' rest', outcome (signedLiteral stop' last factor (t :: rest')) = _ :=
    fun stop' rest' => outcome_signedLiteral stop' last factor (t :: rest')
  cases hl : signedLiteral? factor t with
  | some value =>
    simp only [hl] at hread
    refine .single hbegins hread (fun v hv => hvalue v (hv ▸ hl)) fun d hd => ?_
    exact line_of_signedLiteral? (hd ▸ hl)
  | none =>
    simp only [hl] at hread
    refine .fail hbegins fun stop' ts' halike => ?_
    obtain ⟨us, rfl, -⟩ := halike.exists_cons
    exact ⟨notLiteral t, hread stop' us, rfl⟩

/-- An initial value that begins with a sign. -/
theorem settles_sign {factor : Number} (hf : factor? t = some factor) (stop : Token)
    (rest : List Token) :
    Settles (.of InitialAt) (fun stop ts => outcome (initialValue stop last ts)) stop
      (t :: rest) := by
  have hread : ∀ stop' rest', outcome (initialValue stop' last (t :: rest')) =
      outcome (signedLiteral stop' t (some factor) rest') := fun stop' rest' => by
    rw [outcome_initialValue]
    simp only [hf]
  obtain ⟨s, ht, hfactor⟩ : ∃ s, t.kind = .symbol s ∧
      ∀ sign : Token, sign.kind = .symbol s → factor? sign = some factor := by
    rcases factor?_eq_some_iff.1 hf with ⟨ht, hs⟩ | ⟨ht, hs⟩
    · exact ⟨.minus, ht, fun _ hk => factor?_eq_some_iff.2 (.inl ⟨hk, hs⟩)⟩
    · exact ⟨.plus, ht, fun _ hk => factor?_eq_some_iff.2 (.inr ⟨hk, hs⟩)⟩
  have hsigned : ∀ ts rest, (Phrase.token (.symbol s)).seq unsigned ts rest →
      Phrase.of InitialAt ts rest := by
    rintro ts rest ⟨mid, ⟨sign, hs, rfl⟩, u, ⟨n, hn⟩, rfl⟩
    exact ⟨_, initialAt_of_factor? (hfactor sign hs) hn⟩
  refine (Settles.lead_of_fail_at_stop ht (by simp [Program.endsBody, Phrase.blank])
    begins_unsigned (fun stop' => ?_) fun u us hrest => ?_).mono hsigned
  · exact ⟨_, by rw [hread, outcome_signedLiteral], rfl⟩
  · subst hrest
    simp only [hread]
    refine settles_signedLiteral begins_unsigned (fun v hv other => ?_) stop t us
    obtain ⟨n, hn, -⟩ := signedLiteral?_some_eq_some_ok_iff.1 hv
    exact ⟨u, ⟨n, hn⟩, rfl⟩

theorem begins_initial : (Phrase.of InitialAt).Begins [] :=
  ⟨[Phrase.blank .text], by simp [Phrase.blank, Program.endsBody],
    fun _ _ => ⟨_, .literal (.text rfl)⟩⟩

/-- Reading an initial value settles it, if a token is there. -/
theorem settles_initialValue (stop last t : Token) (rest : List Token) :
    Settles (.of InitialAt) (fun stop ts => outcome (initialValue stop last ts)) stop
      (t :: rest) := by
  cases hf : factor? t with
  | some factor => exact settles_sign hf stop rest
  | none =>
    have hvalue : ∀ v, signedLiteral? none t = some (.ok v) → ∀ other,
        Phrase.of InitialAt (t :: other) other := fun v hv other => by
      rw [signedLiteral?_none] at hv
      exact ⟨v, .literal (literal?_eq_some_ok_iff.1 hv)⟩
    refine (settles_signedLiteral begins_initial hvalue stop last rest).congr
      fun stop' ts' halike => ?_
    obtain ⟨us, rfl, -⟩ := halike.exists_cons
    rw [outcome_initialValue]
    simp only [hf]

/-- A name, and behind an equal sign its initial value. -/
theorem settles_declarator (stop : Token) (type : DataType) (last : Token) (ts : List Token) :
    Settles (.of DeclaratorAt) (fun stop ts => outcome (declarator stop type last ts)) stop ts := by
  have hdeclarator : ∀ ts rest, (Phrase.token .identifier).seq
      (((Phrase.token (.symbol .equal)).seq (.of InitialAt)).optional) ts rest →
      Phrase.of DeclaratorAt ts rest := by
    rintro ts rest ⟨mid, ⟨t, ht, rfl⟩, rfl | ⟨mid, ⟨equal, he, rfl⟩, v, hv⟩⟩
    · exact ⟨⟨t.lexeme, none, ⟨⟨0, 0⟩, 0⟩⟩, .bare ht⟩
    · exact ⟨⟨t.lexeme, some v, ⟨⟨0, 0⟩, 0⟩⟩, .initialized ht he hv⟩
  simp only [outcome_declarator]
  refine (Settles.expect_seq rfl (Phrase.begins_optional _) fun t rest _ => ?_).mono hdeclarator
  refine .optional (.symbol .equal) ⟨t.lexeme, none, t.mark⟩ t (fun stop' ts' hne => ?_)
    fun equal others he hrest => ?_
  · simp only [accepted_of_ne hne]
  · subst hrest
    refine .lead_of_fail_at_stop he rfl begins_initial (fun stop' => ?_) fun u us hothers => ?_
    · refine ⟨notLiteral (taken stop' equal []), ?_, rfl⟩
      simp only [accepted_of_eq he, outcome_initialValue]
      rfl
    · subst hothers
      simp only [accepted_of_eq he]
      exact .map (settles_initialValue stop equal u us) fun _ _ _ _ => rfl

/-- A list of items with separators between them settles if its items do. -/
theorem settles_list {α : Type} {separator : Symbol} {itemAt : List Token → α → List Token → Prop}
    {item : Token → Token → List Token → Except Diagnostic (Reading α)}
    {list : Token → Token → List Token → Except Diagnostic (Reading (List α))}
    (hreads : ∀ stop, ReadsList (.symbol separator) (item stop) (list stop))
    (hseparator : (Phrase.token (.symbol separator)).Apart)
    (hlt : ∀ {stop last ts q}, item stop last ts = .ok q → q.rest.length < ts.length)
    (hitem : ∀ stop last ts,
      Settles (.of itemAt) (fun stop ts => item stop last ts) stop ts)
    (stop last : Token) (ts : List Token) :
    Settles (.of (Separated itemAt (.symbol separator))) (fun stop ts => list stop last ts) stop
      ts := by
  have hbegins : (Phrase.of (Separated itemAt (.symbol separator))).Begins [] :=
    (hitem stop last []).begins.mono fun _ _ ⟨a, ha⟩ => ⟨[a], .one ha⟩
  have hseparated : ∀ ts rest, (Phrase.of itemAt).seq (((Phrase.token (.symbol separator)).seq
      (.of (Separated itemAt (.symbol separator)))).optional) ts rest →
      Phrase.of (Separated itemAt (.symbol separator)) ts rest := by
    rintro ts rest ⟨mid, ⟨a, ha⟩, rfl | ⟨mid, ⟨t, ht, rfl⟩, as, has⟩⟩
    · exact ⟨[a], .one ha⟩
    · exact ⟨a :: as, .more ha ht has⟩
  have hread : ∀ stop ts, list stop last ts = _ := fun stop ts => hreads stop last ts
  simp only [hread]
  refine ((hitem stop last ts).seq (.inr (hseparator.token_seq _).optional)
    (Phrase.begins_optional _) fun first hfirst => ?_).mono hseparated
  refine .optional (.symbol separator) [first.value] first.last (fun stop' ts' hne => ?_)
    fun t others ht hrest => ?_
  · simp only [accepted_of_ne hne]
  · have hshorter : others.length < ts.length := by
      have := hlt hfirst
      simp only [hrest, List.length_cons] at this
      omega
    rw [hrest]
    refine .lead ht ?_
    simp only [accepted_of_eq ht]
    exact .map (settles_list hreads hseparator hlt hitem stop t others) fun _ _ _ _ => rfl
termination_by ts.length

theorem settles_declarators (stop : Token) (type : DataType) (last : Token) (ts : List Token) :
    Settles (.of (Separated DeclaratorAt (.symbol .comma)))
      (fun stop ts => outcome (declarators stop type last ts)) stop ts :=
  settles_list (fun stop => readsList_declarators stop type) (Phrase.apart_symbol (by simp))
    rest_length_lt (fun stop => settles_declarator stop type) stop last ts

/-- The declarators of a declaration, which in the header of a loop is a single one. -/
def Declared (single : Bool) (ts : List Token) (ds : List Declarator) (rest : List Token) : Prop :=
  if single then
    ∃ d, ds = [d] ∧ DeclaratorAt ts d rest
  else
    Separated DeclaratorAt (.symbol .comma) ts ds rest

theorem settles_declared (single : Bool) (stop : Token) (type : DataType) (last : Token)
    (ts : List Token) :
    Settles (.of (Declared single)) (fun stop ts =>
      if single then
        outcome (declarator stop type last ts) >>= fun d => .ok ⟨[d.value], d.last, d.rest⟩
      else
        outcome (declarators stop type last ts)) stop ts := by
  cases single with
  | true =>
    exact (Settles.map (settles_declarator stop type last ts) fun _ _ _ _ => rfl).mono
      fun _ _ ⟨d, hd⟩ => ⟨[d], d, rfl, hd⟩
  | false => exact settles_declarators stop type last ts

def typeName : Phrase :=
  .one fun t => ∃ type : DataType, t.kind = .keyword type.keyword

theorem begins_typeName : typeName.Begins [] :=
  ⟨[Phrase.blank (.keyword .numero)], by simp [Phrase.blank, Program.endsBody],
    fun _ _ => ⟨_, ⟨.numero, rfl⟩, rfl⟩⟩

/-- A declaration, with its keyword. -/
theorem settles_declaration {P : Phrase} {single : Bool} {read : Reader Stmt}
    (ht : t.kind = .keyword .mugna)
    (hread : ∀ stop' rest', read stop' (t :: rest') = outcome (declaration single stop' t rest'))
    (hP : ∀ {t word us ds rest} {type : DataType}, t.kind = .keyword .mugna →
      word.kind = .keyword type.keyword → Declared single us ds rest → P (t :: word :: us) rest)
    (stop : Token) (rest : List Token) : Settles P read stop (t :: rest) := by
  have hdeclaration : ∀ ts rest, (Phrase.token (.keyword .mugna)).seq
      (typeName.seq (.of (Declared single))) ts rest → P ts rest := by
    rintro ts rest ⟨mid, ⟨t, ht, rfl⟩, us, ⟨word, ⟨type, hw⟩, rfl⟩, ds, hds⟩
    exact hP ht hw hds
  have hbegins : (typeName.seq (.of (Declared single))).Begins [] :=
    begins_typeName.seq_left (.inl (Phrase.free_one _))
      (settles_declared single stop .numero t []).begins
  refine (Settles.lead_of_fail_at_stop ht rfl hbegins (fun stop' => ?_)
    fun word us hrest => ?_).mono hdeclaration
  · exact ⟨_, by rw [hread, outcome_declaration], rfl⟩
  · subst hrest
    simp only [hread, outcome_declaration]
    cases htype : DataType.ofKind? word.kind with
    | none =>
      refine .fail hbegins fun stop' ts' halike => ?_
      obtain ⟨us', rfl, -⟩ := halike.exists_cons
      refine ⟨declaration.noType word, ?_, rfl⟩
      simp only [htype]
    | some type =>
      have hw : word.kind = .keyword type.keyword := ofKind?_eq_some_iff.1 htype
      refine .lead ⟨type, hw⟩ ?_
      simp only [htype]
      exact .map (settles_declared single stop type word us) fun _ _ _ _ => rfl

theorem free_targets : (Phrase.of TargetsAt).Free := by
  rintro ts rest ⟨names, h⟩
  induction h with
  | nil => exact ⟨[], rfl, fun other => ⟨[], .nil⟩⟩
  | @cons t equal us rest names ht he hn ih =>
    obtain ⟨c, rfl, hc⟩ := ih
    refine ⟨t :: equal :: c, rfl, fun other => ?_⟩
    obtain ⟨names', hnames⟩ := hc other
    exact ⟨t.lexeme :: names', .cons ht he hnames⟩

/-- Further targets are read without a failure. -/
theorem settles_furtherTargets (stop last : Token) (ts : List Token) :
    Settles (.of TargetsAt) (fun _ ts => .ok (furtherTargets last ts).reading) stop ts := by
  by_cases hequal : ∃ t rest, ts = t :: rest ∧ t.kind = .identifier ∧
      front? rest = some (.symbol .equal)
  · obtain ⟨t, us, rfl, ht, hf⟩ := hequal
    obtain ⟨equal, rest, rfl, he⟩ := exists_cons_of_front? hf
    have htargets : ∀ ts rest, (Phrase.token .identifier).seq
        ((Phrase.token (.symbol .equal)).seq (.of TargetsAt)) ts rest →
        Phrase.of TargetsAt ts rest := by
      rintro ts rest ⟨mid, ⟨t, ht, rfl⟩, us, ⟨equal, he, rfl⟩, names, hn⟩
      exact ⟨t.lexeme :: names, .cons ht he hn⟩
    refine (Settles.lead ht (.lead he ?_)).mono htargets
    simp only [furtherTargets_cons _ last ht he]
    exact .map (g := fun more => t.lexeme :: more.value) (settles_furtherTargets stop equal rest)
      fun _ _ _ _ => rfl
  · have hstay : (Phrase.of TargetsAt).Spells [] ts := fun _ _ => ⟨[], .nil⟩
    refine .stay [] last hstay fun stop' ts' halike => ?_
    rw [furtherTargets_of_ne (halike.front?_ne hequal)]
termination_by ts.length
decreasing_by
  subst_vars
  simp only [List.length_cons]
  omega

/-- An assignment is read by four readers, of which the third takes the further targets. -/
theorem outcome_assignment_bind (stop last : Token) (ts : List Token) :
    outcome (assignment stop last ts) =
      outcome (expect stop .identifier .assignedName last ts) >>= fun first =>
        outcome (expect stop (.symbol .equal) (.equalSign first.value.lexeme) first.last
          first.rest) >>= fun equal =>
        .ok (furtherTargets equal.last equal.rest).reading >>= fun more =>
        outcome (expression stop more.rest) >>= fun value =>
          .ok ⟨⟨first.value.lexeme :: more.value, value.value,
            ⟨first.value.span.join value.value.mark.span, first.value.line⟩⟩,
            value.last, value.rest⟩ :=
  outcome_assignment stop last ts

/-- An assignment is settled by its own tokens and two further ones. -/
theorem settles_assignment (stop last : Token) (ts : List Token) :
    Settles (.of AssignmentAt) (fun stop ts => outcome (assignment stop last ts)) stop ts := by
  have hassignment : ∀ ts rest, (Phrase.token .identifier).seq ((Phrase.token (.symbol .equal)).seq
      ((Phrase.of TargetsAt).seq (.of (ExprAt 0)))) ts rest → Phrase.of AssignmentAt ts rest := by
    rintro ts rest ⟨mid, ⟨t, ht, rfl⟩, us, ⟨equal, he, rfl⟩, vs, ⟨names, hn⟩, e, hexpr⟩
    exact ⟨⟨t.lexeme :: names, e, ⟨⟨0, 0⟩, 0⟩⟩, .mk (.cons ht he hn) hexpr⟩
  have hvalue : ((Phrase.of TargetsAt).seq (.of (ExprAt 0))).Begins [] :=
    (settles_furtherTargets stop last []).begins.seq_left (.inl free_targets)
      (begins_expr (Nat.zero_le 6))
  have hequal : ((Phrase.token (.symbol .equal)).seq
      ((Phrase.of TargetsAt).seq (.of (ExprAt 0)))).Begins [] :=
    Phrase.begins_token_seq rfl hvalue
  simp only [outcome_assignment_bind]
  refine (Settles.expect_seq rfl hequal fun name us _ => ?_).mono hassignment
  dsimp only
  refine .expect_seq rfl hvalue fun equal vs _ => ?_
  refine (settles_furtherTargets stop equal vs).seq (.inl free_targets)
    (begins_expr (Nat.zero_le 6)) fun more _ => ?_
  dsimp only
  exact .map (settles_expression stop more.rest) fun _ _ _ _ => rfl

theorem settles_outputValues (stop : Token) (ts : List Token) :
    Settles (.of (Separated (ExprAt 0) (.symbol .ampersand)))
      (fun stop ts => outcome (outputValues stop ts)) stop ts :=
  settles_list readsList_outputValues (Phrase.apart_symbol (by simp)) rest_length_lt
    (fun stop _ => settles_expression stop) stop stop ts

theorem settles_output (stop start : Token) (ts : List Token) :
    Settles ((Phrase.token (.symbol .colon)).seq (.of (Separated (ExprAt 0) (.symbol .ampersand))))
      (fun stop ts => outcome (output stop start ts)) stop ts := by
  simp only [outcome_output]
  refine .expect_seq rfl (settles_outputValues stop []).begins fun colon rest _ => ?_
  exact .map (settles_outputValues stop rest) fun _ _ _ _ => rfl

theorem settles_inputTarget (stop last : Token) (ts : List Token) :
    Settles (.of NameAt) (fun stop ts => inputTarget stop last ts) stop ts := by
  have hname : ∀ ts rest, Phrase.token .identifier ts rest → Phrase.of NameAt ts rest := by
    rintro ts rest ⟨t, ht, rfl⟩
    exact ⟨t.lexeme, .mk ht⟩
  unfold inputTarget
  exact (Settles.map (g := fun name => name.value.lexeme) (.expect stop last _ _ ts rfl)
    fun _ _ _ _ => rfl).mono hname

theorem settles_inputTargets (stop last : Token) (ts : List Token) :
    Settles (.of (Separated NameAt (.symbol .comma)))
      (fun stop ts => outcome (inputTargets stop last ts)) stop ts :=
  settles_list readsList_inputTargets (Phrase.apart_symbol (by simp))
    rest_length_lt_of_inputTarget settles_inputTarget stop last ts

theorem settles_input (stop start : Token) (ts : List Token) :
    Settles ((Phrase.token (.symbol .colon)).seq (.of (Separated NameAt (.symbol .comma))))
      (fun stop ts => outcome (input stop start ts)) stop ts := by
  simp only [outcome_input]
  refine .expect_seq rfl (settles_inputTargets stop start []).begins fun colon rest _ => ?_
  exact .map (settles_inputTargets stop colon rest) fun _ _ _ _ => rfl

theorem settles_loopIncrement (stop last : Token) (ts : List Token) :
    Settles (.of LoopIncrementAt) (fun stop ts => outcome (loopIncrement stop last ts)) stop
      ts := by
  have hassignment : ∀ ts rest, Phrase.of AssignmentAt ts rest →
      Phrase.of LoopIncrementAt ts rest := fun _ _ ⟨a, ha⟩ => ⟨a, .assignment ha⟩
  by_cases hincrement : ∃ t rest, ts = t :: rest ∧ t.kind = .identifier ∧
      front? rest = some (.symbol .increment)
  · obtain ⟨t, us, rfl, ht, hf⟩ := hincrement
    obtain ⟨operator, rest, rfl, ho⟩ := exists_cons_of_front? hf
    have hpair : ∀ ts rest, (Phrase.token .identifier).seq (.token (.symbol .increment)) ts rest →
        Phrase.of LoopIncrementAt ts rest := by
      rintro ts rest ⟨mid, ⟨t, ht, rfl⟩, operator, ho, rfl⟩
      exact ⟨incrementOf t operator, .increment ht ho⟩
    have hread : ∀ stop' rest', outcome (loopIncrement stop' last (t :: operator :: rest')) =
        Except.ok (incrementOf t operator) >>= fun a => .ok ⟨a, operator, rest'⟩ :=
      fun stop' _ => outcome_loopIncrement_of_increment stop' last ht ho
    refine (Settles.lead ht (.single (Phrase.begins_token rfl) hread ?_ ?_)).mono hpair
    · exact fun _ _ other => ⟨operator, ho, rfl⟩
    · intro d hd
      cases hd
  · refine ((settles_assignment stop last ts).mono hassignment).congr fun stop' ts' halike => ?_
    exact outcome_loopIncrement_of_ne (halike.front?_ne hincrement)

theorem settles_loopInitializer (stop last : Token) (ts : List Token) :
    Settles (.of LoopInitializerAt) (fun stop ts => outcome (loopInitializer stop last ts)) stop
      ts := by
  have hassignment : ∀ ts rest, Phrase.of AssignmentAt ts rest →
      Phrase.of LoopInitializerAt ts rest := fun _ _ ⟨a, ha⟩ => ⟨.assignment a, .assignment ha⟩
  by_cases hm : front? ts = some (.keyword .mugna)
  · obtain ⟨t, rest, rfl, ht⟩ := exists_cons_of_front? hm
    have hread : ∀ stop' rest', outcome (loopInitializer stop' last (t :: rest')) =
        outcome (declaration true stop' t rest') := fun stop' rest' => by
      rw [outcome_loopInitializer, accepted_of_eq ht]
    refine settles_declaration ht hread (fun ht hw hds => ?_) stop rest
    obtain ⟨d, rfl, hd⟩ := hds
    exact ⟨.declaration _ [d] ⟨0, 0⟩, .declaration ht hw hd⟩
  by_cases hi : front? ts = some .identifier
  · refine .congr (.map (g := fun a => .assignment a.value)
      ((settles_assignment stop last ts).mono hassignment) fun _ _ _ _ => rfl)
      fun stop' ts' halike => ?_
    rw [halike.front?_eq] at hm hi
    rw [outcome_loopInitializer, accepted_of_ne hm]
    exact if_pos hi
  · refine .fail ((settles_assignment stop last []).begins.mono hassignment)
      fun stop' ts' halike => ?_
    rw [halike.front?_eq] at hm hi
    refine ⟨blame (.notInitializer (next stop' ts').lexeme) (next stop' ts'), ?_, rfl⟩
    rw [outcome_loopInitializer, accepted_of_ne hm]
    exact if_neg hi

/-- The clauses of a loop are settled by their own tokens and two further ones. -/
theorem settles_loopHeader (stop last : Token) (ts : List Token) :
    Settles (.of LoopHeaderAt) (fun stop ts => outcome (loopHeader stop last ts)) stop ts := by
  have hheader : ∀ ts rest, (Phrase.token (.symbol .leftParen)).seq
      ((Phrase.of LoopInitializerAt).seq ((Phrase.token (.symbol .comma)).seq
      ((Phrase.of (ExprAt 0)).seq ((Phrase.token (.symbol .comma)).seq
      ((Phrase.of LoopIncrementAt).seq (Phrase.token (.symbol .rightParen))))))) ts rest →
      Phrase.of LoopHeaderAt ts rest := by
    rintro ts rest ⟨mid, ⟨opening, ho, rfl⟩, us, ⟨init, hi⟩, vs, ⟨comma, hm, rfl⟩, ws, ⟨e, he⟩, xs,
      ⟨comma', hm', rfl⟩, ys, ⟨a, ha⟩, closing, hc, rfl⟩
    exact ⟨⟨init, e, a⟩, .mk ho hi hm he hm' ha hc⟩
  -- From its end to its start, whatever is left of a header can be completed.
  have hclosing : (Phrase.token (.symbol .rightParen)).Begins [] := Phrase.begins_token rfl
  have hincrement := (settles_loopIncrement stop last []).begins.seq_left
    (.inr (Phrase.apart_symbol (by simp))) hclosing
  have hapart : (Phrase.token (.symbol .comma)).Apart := Phrase.apart_symbol (by simp)
  have hcomma' : ((Phrase.token (.symbol .comma)).seq _).Begins [] :=
    Phrase.begins_token_seq rfl hincrement
  have hcondition := (begins_expr (Nat.zero_le 6)).seq_left
    (.inr (hapart.token_seq _)) hcomma'
  have hcomma : ((Phrase.token (.symbol .comma)).seq _).Begins [] :=
    Phrase.begins_token_seq rfl hcondition
  have hinitializer := (settles_loopInitializer stop last []).begins.seq_left
    (.inr (hapart.token_seq _)) hcomma
  simp only [outcome_loopHeader]
  refine (Settles.expect_seq rfl hinitializer fun opening us _ => ?_).mono hheader
  refine (settles_loopInitializer stop opening us).seq (.inr (hapart.token_seq _)) hcomma
    fun init _ => ?_
  dsimp only
  refine .expect_seq rfl hcondition fun comma vs _ => ?_
  dsimp only
  refine (settles_expression stop vs).seq (.inr (hapart.token_seq _)) hcomma' fun condition _ => ?_
  dsimp only
  refine .expect_seq rfl hincrement fun comma' ws _ => ?_
  dsimp only
  refine (settles_loopIncrement stop comma' ws).seq (.inr (Phrase.apart_symbol (by simp))) hclosing
    fun increment _ => ?_
  dsimp only
  exact .map (.expect stop increment.last _ _ increment.rest rfl) fun _ _ _ _ => rfl

end BisayaPlus.Parse
