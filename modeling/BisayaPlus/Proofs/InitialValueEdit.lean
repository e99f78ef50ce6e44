import BisayaPlus.Proofs.GrammarCompleteness
import BisayaPlus.Proofs.Rendering

/-!
A declaration with an initial value, and the edit of tokens that takes the value out of it and
assigns it in a statement behind. The edit has one place, and tokens only change their places in
the source otherwise. What the grammar derives without a declaration in front is derived from the
edited tokens as well, and the place of the edit is then still ahead.
-/

namespace BisayaPlus

open Token

theorem DataType.keyword_ne_mugna (type : DataType) :
    Token.Kind.keyword type.keyword ≠ .keyword .mugna := by
  cases type <;> decide

inductive IsInitial : List (Token.Kind × String) → Prop
  | literal {kind : Token.Kind} {lexeme : String}
      (hk : kind ∈ [.number, .text, .character, .boolean]) : IsInitial [(kind, lexeme)]
  | signed {sign : Symbol} {lexeme : String} (hs : sign ∈ [.plus, .minus]) :
      IsInitial [(.symbol sign, sign.spelling), (.number, lexeme)]

theorem IsInitial.ne_katapusan {fs : List (Token.Kind × String)} (h : IsInitial fs) :
    ∀ f ∈ fs, f.1 ≠ .keyword .katapusan := by
  cases h with
  | literal hk =>
    refine List.forall_mem_singleton.2 ?_
    rintro rfl
    simp at hk
  | signed => simp

/-- A name that is declared with a type and an initial value. -/
structure Initialization where
  type : DataType
  name : String
  value : List (Token.Kind × String)
  isInitial : IsInitial value

namespace Initialization

def bare (i : Initialization) : List (Token.Kind × String) :=
  [(.keyword .mugna, Keyword.mugna.spelling), (.keyword i.type.keyword, i.type.keyword.spelling),
    (.identifier, i.name)]

def given (i : Initialization) : List (Token.Kind × String) :=
  (.symbol .equal, Symbol.equal.spelling) :: i.value

def declared (i : Initialization) : List (Token.Kind × String) :=
  i.bare ++ i.given

def assigned (i : Initialization) : List (Token.Kind × String) :=
  i.bare ++ (.identifier, i.name) :: i.given

theorem assigned_subset (i : Initialization) : i.assigned ⊆ i.declared := by
  simp [assigned, declared, bare, given]

theorem ne_katapusan_of_mem_declared (i : Initialization) :
    ∀ f ∈ i.declared, f.1 ≠ .keyword .katapusan := by
  have htype : i.type.keyword ≠ .katapusan := by cases i.type <;> decide
  simpa [declared, bare, given, htype] using i.isInitial.ne_katapusan

end Initialization

/-- Tokens before and after an edit, of which the place is still ahead or not. The declaration has
no further declarators behind its value. -/
inductive Edit (i : Initialization) : Bool → List Token → List Token → Prop
  | same {ts us : List Token} (h : us.map face = ts.map face) : Edit i false ts us
  | ahead {ts us : List Token} {before after : List (Token.Kind × String)}
      (hts : ts.map face = before ++ (i.declared ++ after))
      (hus : us.map face = before ++ (i.assigned ++ after))
      (hcomma : after.head?.map Prod.fst ≠ some (.symbol .comma)) : Edit i true ts us

namespace Edit

open Grammar

variable {i : Initialization} {b : Bool} {t : Token} {ts us : List Token}

def Here (i : Initialization) (ts us : List Token) : Prop :=
  ∃ after, ts.map face = i.declared ++ after ∧ us.map face = i.assigned ++ after ∧
    after.head?.map Prod.fst ≠ some (.symbol .comma)

def Next (i : Initialization) (b : Bool) (ts us : List Token) : Prop :=
  ∃ t rest u rest', ts = t :: rest ∧ us = u :: rest' ∧ u.face = t.face ∧ Edit i b rest rest'

theorem cons {u : Token} (h : Edit i b ts us) (hf : u.face = t.face) :
    Edit i b (t :: ts) (u :: us) := by
  cases h with
  | same h => exact .same (by rw [List.map_cons, List.map_cons, hf, h])
  | @ahead _ _ before after hts hus hcomma =>
    refine @ahead i _ _ (t.face :: before) after ?_ ?_ hcomma
    · rw [List.map_cons, hts, List.cons_append]
    · rw [List.map_cons, hf, hus, List.cons_append]

theorem Next.edit (h : Next i b ts us) : Edit i b ts us := by
  obtain ⟨t, rest, u, rest', rfl, rfl, hf, h⟩ := h
  exact h.cons hf

/-- At the first token of an edit, the token stays or the place of the edit is in front. -/
theorem cons_cases (h : Edit i b (t :: ts) us) :
    Next i b (t :: ts) us ∨ b = true ∧ Here i (t :: ts) us := by
  cases h with
  | same h =>
    obtain ⟨u, rest', rfl, hf, hrest⟩ := List.map_eq_cons_iff.1 h
    exact .inl ⟨t, ts, u, rest', rfl, rfl, hf, .same hrest⟩
  | @ahead _ _ before after hts hus hcomma =>
    cases before with
    | nil => exact .inr ⟨rfl, after, hts, hus, hcomma⟩
    | cons f before =>
      obtain ⟨hf, hts⟩ := List.cons.inj hts
      obtain ⟨u, rest', rfl, hu, hus⟩ := List.map_eq_cons_iff.1 hus
      exact .inl ⟨t, ts, u, rest', rfl, rfl, hu.trans hf.symm, .ahead hts hus hcomma⟩

theorem Here.mugna (h : Here i (t :: ts) us) : t.kind = .keyword .mugna := by
  obtain ⟨after, hts, -⟩ := h
  exact congrArg Prod.fst (List.cons.inj hts).1

/-- A token that begins no declaration stays. -/
theorem uncons (h : Edit i b (t :: ts) us) (ht : t.kind ≠ .keyword .mugna) :
    ∃ u rest, us = u :: rest ∧ u.kind = t.kind ∧ u.lexeme = t.lexeme ∧ Edit i b ts rest := by
  obtain ⟨_, _, u, rest, heq, rfl, hf, hrest⟩ | ⟨-, hhere⟩ := h.cons_cases
  · cases heq
    exact ⟨u, rest, rfl, congrArg Prod.fst hf, congrArg Prod.snd hf, hrest⟩
  · exact absurd hhere.mugna ht

/-- An edit keeps the kind of the first token. -/
theorem front?_eq (h : Edit i b ts us) : front? us = front? ts := by
  have hface (vs : List Token) : front? vs = (vs.map face).head?.map Prod.fst := by
    cases vs <;> rfl
  rw [hface, hface]
  cases h with
  | same h => rw [h]
  | @ahead _ _ before after hts hus =>
    rw [hts, hus]
    cases before <;> rfl

theorem eq_nil (h : Edit i b [] us) : b = false ∧ us = [] := by
  cases h with
  | same h => exact ⟨rfl, List.map_eq_nil_iff.1 h⟩
  | ahead hts => exact absurd hts.symm (by simp [Initialization.declared, Initialization.given])

theorem exists_face_eq (h : Edit i b ts us) : ∀ u ∈ us, ∃ t ∈ ts, t.face = u.face := by
  intro u hu
  have hmem : u.face ∈ us.map face := List.mem_map_of_mem hu
  rw [← List.mem_map]
  cases h with
  | same h => exact h ▸ hmem
  | ahead hts hus =>
    rw [hus] at hmem
    rw [hts]
    simp only [List.mem_append] at hmem ⊢
    exact hmem.imp_right fun h => h.imp_left fun h => i.assigned_subset h

/-- An edit does not change whether an operand begins. -/
theorem beginsOperand_iff (h : Edit i b ts us) : BeginsOperand us ↔ BeginsOperand ts := by
  rw [← startsOperand_iff, ← startsOperand_iff]
  cases ts with
  | nil =>
    rw [h.eq_nil.2]
  | cons t ts =>
    obtain ⟨_, _, u, rest, heq, rfl, hf, hrest⟩ | ⟨-, hhere⟩ := h.cons_cases
    · cases heq
      have hat : Parse.atSymbol .equal rest = Parse.atSymbol .equal ts := by
        rw [Bool.eq_iff_iff, Parse.atSymbol_eq_true_iff, Parse.atSymbol_eq_true_iff,
          hrest.front?_eq]
      have hk : u.kind = t.kind := congrArg Prod.fst hf
      rw [Parse.startsOperand, Parse.startsOperand, hk, hat]
    · have hfront := h.front?_eq
      rw [front?_cons, hhere.mugna] at hfront
      obtain ⟨u, rest, rfl, hu⟩ := exists_cons_of_front? hfront
      rw [Parse.startsOperand, Parse.startsOperand, hhere.mugna, hu]

end Edit

namespace Grammar

variable {α : Type} {i : Initialization}

/-- A derivation is kept by the edit, which is then ahead if it was before. -/
def Keeps (i : Initialization) (N : List Token → α → List Token → Prop) : Prop :=
  ∀ ⦃b ts us a rest⦄, N ts a rest → Edit i b ts us → ∃ rest', Edit i b rest rest' ∧ N us a rest'

theorem Literal.of_face {t u : Token} {v : Value} (h : Literal t v) (hk : u.kind = t.kind)
    (hl : u.lexeme = t.lexeme) : Literal u v := by
  cases h with
  | number hkind hn hf => exact .number (hk.trans hkind) (hl ▸ hn) hf
  | text hkind => exact hl ▸ .text (hk.trans hkind)
  | character hkind hc => exact .character (hk.trans hkind) (hl ▸ hc)
  | boolean hkind => exact hl ▸ .boolean (hk.trans hkind)

theorem Literal.kind_ne {t : Token} {v : Value} (h : Literal t v) : t.kind ≠ .keyword .mugna := by
  cases h <;> simp [*]

theorem keeps_unaryOpAt : Keeps i UnaryOpAt := by
  intro b ts us op rest h he
  cases h with
  | negate ht =>
    obtain ⟨u, us, rfl, hk, -, he⟩ := he.uncons (by simp [ht])
    exact ⟨us, he, .negate (hk.trans ht)⟩
  | plus ht =>
    obtain ⟨u, us, rfl, hk, -, he⟩ := he.uncons (by simp [ht])
    exact ⟨us, he, .plus (hk.trans ht)⟩
  | not ht hb =>
    obtain ⟨u, us, rfl, hk, hl, he⟩ := he.uncons (by simp [ht.1])
    exact ⟨us, he, .not ⟨hk.trans ht.1, hl.trans ht.2⟩ (he.beginsOperand_iff.2 hb)⟩

/-- The word for false is read as before, since an operand begins behind it if one did. -/
theorem keeps_exprAt (k : Nat) : Keeps i (ExprAt k) := by
  intro b ts us e rest h he
  induction h generalizing us with
  | tighter hk h ih =>
    obtain ⟨rest', he, h⟩ := ih he
    exact ⟨rest', he, .tighter hk h⟩
  | @binary _ _ _ _ t _ _ op _ hop ht hl hr ihl ihr =>
    obtain ⟨us', he, hl⟩ := ihl he
    obtain ⟨u, us', rfl, hk, -, he⟩ := he.uncons (by rw [ht]; cases op <;> simp [BinaryOp.kind])
    obtain ⟨rest', he, hr⟩ := ihr he
    exact ⟨rest', he, .binary hop (hk.trans ht) hl hr⟩
  | unary ho h ih =>
    obtain ⟨us', he, ho⟩ := keeps_unaryOpAt ho he
    obtain ⟨rest', he, h⟩ := ih he
    exact ⟨rest', he, .unary ho h⟩
  | literal hv hb =>
    obtain ⟨u, rest', rfl, hk, hl, he⟩ := he.uncons hv.kind_ne
    refine ⟨rest', he, .literal (hv.of_face hk hl) fun hf hbegins => ?_⟩
    exact hb ⟨hk.symm.trans hf.1, hl.symm.trans hf.2⟩ (he.beginsOperand_iff.1 hbegins)
  | symbolText ht hs =>
    obtain ⟨u, rest', rfl, hk, -, he⟩ := he.uncons (by simp [ht])
    exact ⟨rest', he, .symbolText (hk.trans ht) hs⟩
  | name ht =>
    obtain ⟨u, rest', rfl, hk, hl, he⟩ := he.uncons (by simp [ht])
    exact ⟨rest', he, hl ▸ .name (hk.trans ht)⟩
  | parens ho h hc ih =>
    obtain ⟨u, us', rfl, hk, -, he⟩ := he.uncons (by simp [ho])
    obtain ⟨ws, he, h⟩ := ih he
    obtain ⟨v, rest', rfl, hk', -, he⟩ := he.uncons (by simp [hc])
    exact ⟨rest', he, .parens (hk.trans ho) h (hk'.trans hc)⟩

/-- A list is kept by the edit if its items are. -/
theorem Keeps.separated {item : List Token → α → List Token → Prop} {separator : Token.Kind}
    (h : Keeps i item) (hs : separator ≠ .keyword .mugna) : Keeps i (Separated item separator) := by
  intro b ts us as rest has he
  induction has generalizing us with
  | one ha =>
    obtain ⟨rest', he, ha⟩ := h ha he
    exact ⟨rest', he, .one ha⟩
  | more ha ht has ih =>
    obtain ⟨us', he, ha⟩ := h ha he
    obtain ⟨u, us', rfl, hk, -, he⟩ := he.uncons (ht ▸ hs)
    obtain ⟨rest', he, has⟩ := ih he
    exact ⟨rest', he, .more ha (hk.trans ht) has⟩

theorem keeps_nameAt : Keeps i NameAt := by
  rintro b _ us _ rest ⟨ht⟩ he
  obtain ⟨u, rest', rfl, hk, hl, he⟩ := he.uncons (by simp [ht])
  exact ⟨rest', he, hl ▸ .mk (hk.trans ht)⟩

theorem keeps_initialAt : Keeps i InitialAt := by
  intro b ts us v rest h he
  cases h with
  | literal hv =>
    obtain ⟨u, rest', rfl, hk, hl, he⟩ := he.uncons hv.kind_ne
    exact ⟨rest', he, .literal (hv.of_face hk hl)⟩
  | negative hs hv =>
    obtain ⟨u, us', rfl, hk, -, he⟩ := he.uncons (by simp [hs])
    obtain ⟨w, rest', rfl, hk', hl, he⟩ := he.uncons hv.kind_ne
    exact ⟨rest', he, .negative (hk.trans hs) (hv.of_face hk' hl)⟩
  | positive hs hv =>
    obtain ⟨u, us', rfl, hk, -, he⟩ := he.uncons (by simp [hs])
    obtain ⟨w, rest', rfl, hk', hl, he⟩ := he.uncons hv.kind_ne
    exact ⟨rest', he, .positive (hk.trans hs) (hv.of_face hk' hl)⟩

theorem keeps_declaratorAt : Keeps i DeclaratorAt := by
  intro b ts us d rest h he
  cases h with
  | bare ht =>
    obtain ⟨u, rest', rfl, hk, hl, he⟩ := he.uncons (by simp [ht])
    exact ⟨rest', he, hl ▸ .bare (hk.trans ht)⟩
  | initialized ht hq hv =>
    obtain ⟨u, us', rfl, hk, hl, he⟩ := he.uncons (by simp [ht])
    obtain ⟨w, us', rfl, hk', -, he⟩ := he.uncons (by simp [hq])
    obtain ⟨rest', he, hv⟩ := keeps_initialAt hv he
    exact ⟨rest', he, hl ▸ .initialized (hk.trans ht) (hk'.trans hq) hv⟩

theorem keeps_targetsAt : Keeps i TargetsAt := by
  intro b ts us names rest h he
  induction h generalizing us with
  | nil => exact ⟨us, he, .nil⟩
  | cons ht hq hn ih =>
    obtain ⟨u, us', rfl, hk, hl, he⟩ := he.uncons (by simp [ht])
    obtain ⟨w, us', rfl, hk', -, he⟩ := he.uncons (by simp [hq])
    obtain ⟨rest', he, hn⟩ := ih he
    exact ⟨rest', he, hl ▸ .cons (hk.trans ht) (hk'.trans hq) hn⟩

/-- An assignment is kept by the edit, which finds no place in it. -/
theorem keeps_assignmentAt : Keeps i AssignmentAt := by
  rintro b ts us _ rest ⟨hn, h⟩ he
  obtain ⟨us', he, hn⟩ := keeps_targetsAt hn he
  obtain ⟨rest', he, h⟩ := keeps_exprAt 0 h he
  exact ⟨rest', he, .mk hn h⟩

theorem keeps_loopIncrementAt : Keeps i LoopIncrementAt := by
  intro b ts us a rest h he
  cases h with
  | increment ht ho =>
    obtain ⟨u, us', rfl, hk, hl, he⟩ := he.uncons (by simp [ht])
    obtain ⟨w, rest', rfl, hk', -, he⟩ := he.uncons (by simp [ho])
    exact ⟨rest', he, hl ▸ .increment (hk.trans ht) (hk'.trans ho)⟩
  | assignment h =>
    obtain ⟨rest', he, h⟩ := keeps_assignmentAt h he
    exact ⟨rest', he, .assignment h⟩

/-- What stands behind an initial value. -/
theorem InitialAt.map_face {ts rest : List Token} {v : Value}
    {value after : List (Token.Kind × String)} (h : InitialAt ts v rest) (hv : IsInitial value)
    (hts : ts.map face = value ++ after) : rest.map face = after := by
  cases hv with
  | @literal kind lexeme hk =>
    obtain ⟨t, us, rfl, ht, hus⟩ := List.map_eq_cons_iff.1 hts
    have hkind : t.kind = kind := congrArg Prod.fst ht
    cases h with
    | literal hv => exact hus
    | negative hs | positive hs =>
      rw [← hkind, hs] at hk
      simp at hk
  | @signed sign lexeme hs =>
    obtain ⟨t, us, rfl, ht, hus⟩ := List.map_eq_cons_iff.1 hts
    have hkind : t.kind = .symbol sign := congrArg Prod.fst ht
    cases h with
    | literal hv => cases hv <;> simp_all
    | negative | positive => exact (List.cons.inj hus).2

/-- A name with an equal sign behind it is declared with a value. -/
theorem DeclaratorAt.exists_initialAt {ts rest : List Token} {d : Declarator}
    {after : List (Token.Kind × String)} (h : DeclaratorAt ts d rest)
    (hts : ts.map face = (.identifier, i.name) :: (i.given ++ after))
    (hr : front? rest ≠ some (.symbol .equal)) :
    ∃ us v m, d = ⟨i.name, some v, m⟩ ∧ us.map face = i.value ++ after ∧ InitialAt us v rest := by
  cases h with
  | bare ht =>
    obtain ⟨equal, us, rfl, he, -⟩ := List.map_eq_cons_iff.1 (List.cons.inj hts).2
    have hk : equal.kind = .symbol .equal := congrArg Prod.fst he
    exact absurd (congrArg some hk) hr
  | @initialized t equal us _ v m ht he hv =>
    obtain ⟨hname, htail⟩ := List.cons.inj hts
    have hl : t.lexeme = i.name := congrArg Prod.snd hname
    exact ⟨us, v, m, by rw [hl], (List.cons.inj htail).2, hv⟩

/-- In the header of a loop a comma stands behind the declarator, so that this is no place of the
edit. -/
theorem LoopInitializerAt.exists_of_edit {ts us rest : List Token} {comma : Token} {s : Stmt}
    {b : Bool} (h : LoopInitializerAt ts s (comma :: rest)) (hc : comma.kind = .symbol .comma)
    (he : Edit i b ts us) :
    ∃ rest', Edit i b (comma :: rest) rest' ∧ LoopInitializerAt us s rest' := by
  cases h with
  | assignment ha =>
    obtain ⟨rest', he, ha⟩ := keeps_assignmentAt ha he
    exact ⟨rest', he, .assignment ha⟩
  | @declaration t word vs _ type d span ht hw hd =>
    obtain ⟨_, _, u, us', heq, rfl, hf, he⟩ | ⟨-, after, hts, -, hcomma⟩ := he.cons_cases
    · cases heq
      have hk : u.kind = t.kind := congrArg Prod.fst hf
      obtain ⟨word', us', rfl, hk', -, he⟩ := he.uncons (hw ▸ type.keyword_ne_mugna)
      obtain ⟨rest', he, hd⟩ := keeps_declaratorAt hd he
      exact ⟨rest', he, .declaration (hk.trans ht) (hk'.trans hw) hd⟩
    · have hvs : vs.map face = (.identifier, i.name) :: (i.given ++ after) :=
        (List.cons.inj (List.cons.inj hts).2).2
      obtain ⟨ws, v, m, -, hws, hv⟩ := hd.exists_initialAt hvs (by simp [hc])
      rw [← hv.map_face i.isInitial hws] at hcomma
      exact absurd (congrArg some hc) hcomma

/-- The clauses of a loop are kept by the edit, since a comma follows a declaration there. -/
theorem keeps_loopHeaderAt : Keeps i LoopHeaderAt := by
  rintro b _ us _ rest ⟨ho, hi, hm, hcondition, hm', ha, hc⟩ he
  obtain ⟨u, us', rfl, hk, -, he⟩ := he.uncons (by simp [ho])
  obtain ⟨us', he, hi⟩ := hi.exists_of_edit hm he
  obtain ⟨u, us', rfl, hk', -, he⟩ := he.uncons (by simp [hm])
  obtain ⟨us', he, hcondition⟩ := keeps_exprAt 0 hcondition he
  obtain ⟨u, us', rfl, hk₂, -, he⟩ := he.uncons (by simp [hm'])
  obtain ⟨us', he, ha⟩ := keeps_loopIncrementAt ha he
  obtain ⟨u, us', rfl, hk₃, -, he⟩ := he.uncons (by simp [hc])
  exact ⟨us', he, .mk (hk.trans ho) hi (hk'.trans hm) hcondition (hk₂.trans hm') ha (hk₃.trans hc)⟩

end Grammar

end BisayaPlus
