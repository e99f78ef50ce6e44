import BisayaPlus.Proofs.GrammarCompleteness

/-!
Phrases are parts of the grammar without their trees. A phrase is a relation between the tokens
from where it begins and the tokens behind it. What stands behind a phrase counts only in so far
as an operand or an equal sign stands in front there.
-/

namespace BisayaPlus.Grammar

open Token

/-- One list may take the place of another behind a phrase. If an operand or an equal sign stands
in front of the one, it does so in front of the other. -/
structure Follows (rest other : List Token) : Prop where
  operand : BeginsOperand other → BeginsOperand rest
  equal : front? other = some (.symbol .equal) → front? rest = some (.symbol .equal)

theorem Follows.refl (rest : List Token) : Follows rest rest :=
  ⟨id, id⟩

/-- What may stand at the end of all tokens may stand behind any phrase. -/
theorem Follows.of_nil {other : List Token} (h : Follows [] other) (rest : List Token) :
    Follows rest other where
  operand ho := by cases h.operand ho
  equal he := by cases h.equal he

/-- Behind a phrase, a list counts for no more than its first token if that is no name. -/
theorem Follows.cons {t : Token} (h : t.kind ≠ .identifier) (rest other : List Token) :
    Follows (t :: rest) (t :: other) where
  operand
    | .literal hk => .literal hk
    | .name hk _ => absurd hk h
    | .symbol hk => .symbol hk
    | .symbolText hk hs => .symbolText hk hs
  equal he := he

theorem follows_nil_of_keyword {t : Token} {k : Keyword} (h : t.kind = .keyword k)
    (rest : List Token) : Follows [] (t :: rest) where
  operand ho := by cases ho <;> simp_all
  equal he := by simp [h] at he

/-- The closing symbols and the separators can begin no operand. -/
theorem follows_nil_of_symbol {t : Token} {s : Symbol} (h : t.kind = .symbol s)
    (hs : s ∈ [.rightParen, .rightBrace, .leftBrace, .comma, .ampersand]) (rest : List Token) :
    Follows [] (t :: rest) := by
  simp only [List.mem_cons, List.not_mem_nil, or_false] at hs
  constructor
  · intro ho
    have hstarts := startsOperand_iff.2 ho
    rcases hs with rfl | rfl | rfl | rfl | rfl <;>
      simp [Parse.startsOperand, h, Parse.symbolText?] at hstarts
  · intro he
    rcases hs with rfl | rfl | rfl | rfl | rfl <;> simp [h] at he

/-- If an operand begins in some tokens, it also does with other tokens behind them. -/
theorem BeginsOperand.of_follows {c rest other : List Token} (hc : c ≠ [])
    (h : BeginsOperand (c ++ rest)) (hf : Follows rest other) : BeginsOperand (c ++ other) := by
  obtain ⟨t, us, rfl⟩ := List.exists_cons_of_ne_nil hc
  cases h with
  | literal hk => exact .literal hk
  | name hk hr =>
    refine .name hk fun he => hr ?_
    cases us with
    | nil => exact hf.equal he
    | cons u us => exact he
  | symbol hk => exact .symbol hk
  | symbolText hk hs => exact .symbolText hk hs

abbrev Phrase :=
  List Token → List Token → Prop

namespace Phrase

variable {α : Type} {P Q R : Phrase}

def of (N : List Token → α → List Token → Prop) : Phrase :=
  fun ts rest => ∃ a, N ts a rest

def one (p : Token → Prop) : Phrase :=
  fun ts rest => ∃ t, p t ∧ ts = t :: rest

def token (kind : Token.Kind) : Phrase :=
  one fun t => t.kind = kind

def seq (P R : Phrase) : Phrase :=
  fun ts rest => ∃ mid, P ts mid ∧ R mid rest

def optional (P : Phrase) : Phrase :=
  fun ts rest => ts = rest ∨ P ts rest

def after (P : Phrase) (c : List Token) : Phrase :=
  fun ts rest => P (c ++ ts) rest

theorem after_after (P : Phrase) (c d : List Token) : (P.after c).after d = P.after (c ++ d) := by
  funext ts rest
  rw [after, after, after, List.append_assoc]

/-- Some tokens are the phrase in front of others, and of all that may take their place. -/
def Spells (P : Phrase) (c rest : List Token) : Prop :=
  ∀ other, Follows rest other → P (c ++ other) other

/-- The phrase may begin with the given tokens. It can be completed so that the body of a program
does not end in it. -/
def Begins (P : Phrase) (before : List Token) : Prop :=
  ∃ us, (∀ t ∈ us, Program.endsBody t = false) ∧ P.Spells (before ++ us) []

/-- What stands behind the phrase does not count for it. -/
def Free (P : Phrase) : Prop :=
  ∀ ts rest, P ts rest → ∃ c, ts = c ++ rest ∧ ∀ other, P (c ++ other) other

def Apart (P : Phrase) : Prop :=
  ∀ ts rest, P ts rest → ts = rest ∨ Follows [] ts

def Meets (P R : Phrase) : Prop :=
  P.Free ∨ R.Apart

theorem Spells.mono {c rest : List Token} (h : P.Spells c rest)
    (hPQ : ∀ ts rest, P ts rest → Q ts rest) : Q.Spells c rest :=
  fun other hf => hPQ _ _ (h other hf)

theorem Begins.mono {before : List Token} (h : P.Begins before)
    (hPQ : ∀ ts rest, P ts rest → Q ts rest) : Q.Begins before := by
  obtain ⟨us, hus, hP⟩ := h
  exact ⟨us, hus, hP.mono hPQ⟩

theorem begins_after {c before : List Token} :
    (P.after c).Begins before ↔ P.Begins (c ++ before) := by
  unfold Begins Spells after
  simp only [List.append_assoc]

theorem spells_after {c d rest : List Token} :
    (P.after c).Spells d rest ↔ P.Spells (c ++ d) rest := by
  unfold Spells after
  simp only [List.append_assoc]

/-- If a phrase goes on with any of another kind, it begins with the first tokens of these. -/
theorem Begins.extend {c before : List Token} (h : R.Begins before)
    (hextend : ∀ us other, Follows [] other → R (us ++ other) other →
      P (c ++ (us ++ other)) other) : (P.after c).Begins before := by
  obtain ⟨us, hus, hR⟩ := h
  exact ⟨us, hus, fun other hf => hextend (before ++ us) other hf (hR other hf)⟩

/-- The first of two phrases stands in front of the second. -/
theorem Meets.left {c first mid rest : List Token} (hm : P.Meets R) (hP : P.Spells c first)
    (hR : R mid rest) (hrest : mid = rest → Follows first mid) : P (c ++ mid) mid := by
  rcases hm with hfree | hapart
  · obtain ⟨d, hd, hother⟩ := hfree _ _ (hP first (.refl first))
    obtain rfl : c = d := List.append_cancel_right hd
    exact hother mid
  · rcases hapart mid rest hR with heq | hmid
    · exact hP mid (hrest heq)
    · exact hP mid (hmid.of_nil first)

/-- Two phrases that may meet are spelled one after the other. -/
theorem Spells.seq {c d rest : List Token} (hm : P.Meets R) (hP : P.Spells c (d ++ rest))
    (hR : R.Spells d rest) : (P.seq R).Spells (c ++ d) rest := by
  intro other hf
  have hmid := hR other hf
  refine ⟨d ++ other, ?_, hmid⟩
  rw [List.append_assoc]
  refine hm.left hP hmid fun heq => ?_
  obtain rfl : d = [] := List.append_left_eq_self.1 heq
  exact hf

/-- What begins the first phrase begins both, if the second one can be completed. -/
theorem Begins.seq_left {before : List Token} (hm : P.Meets R) (hP : P.Begins before)
    (hR : R.Begins []) : (P.seq R).Begins before := by
  obtain ⟨us, hus, hP⟩ := hP
  obtain ⟨vs, hvs, hR⟩ := hR
  refine ⟨us ++ vs, List.forall_mem_append.2 ⟨hus, hvs⟩, fun other hf => ?_⟩
  have hmid := hR other hf
  refine ⟨vs ++ other, ?_, hmid⟩
  rw [← List.append_assoc, List.append_assoc]
  exact hm.left hP hmid fun heq => heq.symm ▸ hf

/-- Behind the first phrase, what begins the second one begins both. -/
theorem Begins.seq_right {c before rest : List Token} (hm : P.Meets R) (hP : P.Spells c rest)
    (hR : R.Begins before) : (P.seq R).Begins (c ++ before) := by
  obtain ⟨us, hus, hR⟩ := hR
  refine ⟨us, hus, fun other hf => ?_⟩
  have hmid := hR other hf
  refine ⟨before ++ us ++ other, ?_, hmid⟩
  rw [List.append_assoc c, List.append_assoc c]
  exact hm.left hP hmid fun heq => (heq.symm ▸ hf : Follows [] _).of_nil rest

theorem Apart.seq (hP : P.Apart) (hR : R.Apart) : (P.seq R).Apart := by
  rintro ts rest ⟨mid, hts, hmid⟩
  rcases hP ts mid hts with rfl | h
  · exact hR ts rest hmid
  · exact .inr h

theorem Apart.optional (hP : P.Apart) : P.optional.Apart := by
  rintro ts rest (rfl | h)
  · exact .inl rfl
  · exact hP ts rest h

theorem begins_optional (P : Phrase) : P.optional.Begins [] :=
  ⟨[], by simp, fun _ _ => .inl rfl⟩

theorem free_one (p : Token → Prop) : (one p).Free := by
  rintro ts rest ⟨t, ht, rfl⟩
  exact ⟨[t], rfl, fun other => ⟨t, ht, rfl⟩⟩

theorem free_token (kind : Token.Kind) : (token kind).Free :=
  free_one _

theorem spells_token {kind : Token.Kind} {t : Token} (h : t.kind = kind) (rest : List Token) :
    (token kind).Spells [t] rest :=
  fun _ _ => ⟨t, h, rfl⟩

/-- A closing parenthesis, a brace, a comma or an ampersand does not count for what it stands
behind. -/
theorem apart_symbol {s : Symbol}
    (hs : s ∈ [.rightParen, .rightBrace, .leftBrace, .comma, .ampersand]) :
    (token (.symbol s)).Apart := by
  rintro ts rest ⟨t, ht, rfl⟩
  exact .inr (follows_nil_of_symbol ht hs rest)

/-- A phrase with a token in front is as apart as that token. -/
theorem Apart.token_seq {kind : Token.Kind} (h : (token kind).Apart) (R : Phrase) :
    ((token kind).seq R).Apart := by
  rintro ts rest ⟨mid, ⟨t, ht, rfl⟩, -⟩
  rcases h (t :: mid) mid ⟨t, ht, rfl⟩ with heq | hf
  · exact absurd heq (List.cons_ne_self t mid)
  · exact .inr hf

def blank (kind : Token.Kind) : Token :=
  ⟨kind, "", ⟨0, 0⟩, 0⟩

theorem begins_token {kind : Token.Kind} (h : Program.endsBody (blank kind) = false) :
    (token kind).Begins [] :=
  ⟨[blank kind], by simpa using h, fun _ _ => ⟨blank kind, rfl, rfl⟩⟩

theorem begins_token_seq {kind : Token.Kind} (h : Program.endsBody (blank kind) = false)
    (hR : R.Begins []) : ((token kind).seq R).Begins [] :=
  (begins_token h).seq_left (.inl (free_token kind)) hR

end Phrase

end BisayaPlus.Grammar
