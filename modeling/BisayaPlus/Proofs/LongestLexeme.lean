import BisayaPlus.Proofs.Prelude
import BisayaPlus.Token.Lexeme

/-!
What is read at the front of a text is the longest token there. The first character settles which
of the rules can apply, so each of them is looked at alone.
-/

namespace BisayaPlus.Lexeme

open Text

inductive WordAs (cs : List Char) : Token.Kind → String → Prop
  | boolean {w : String} (hw : w ∈ [Value.trueWord, Value.falseWord])
      (h : String.ofList (upperCase cs) = w) : WordAs cs .boolean w
  | keyword {k : Keyword} (hk : k ∈ Keyword.single)
      (h : String.ofList (upperCase cs) = k.spelling) : WordAs cs (.keyword k) k.spelling
  | identifier (hb : String.ofList (upperCase cs) ∉ [Value.trueWord, Value.falseWord])
      (hk : ∀ k ∈ Keyword.single, String.ofList (upperCase cs) ≠ k.spelling) :
      WordAs cs .identifier (String.ofList cs)

/-- The rules for tokens. -/
inductive Rule where
  | number
  | text
  | character
  | word
  | symbol
  deriving DecidableEq

/-- A piece of text is a token by a rule, in front of the rest. The rest only counts for a text
without a closing quote, which is a token at the end of the source. -/
inductive Belongs : Rule → List Char → Token.Kind → String → List Char → Prop
  | whole {ds rest : List Char} (hne : ds ≠ []) (hd : ∀ d ∈ ds, Number.isDigit d = true) :
      Belongs .number ds .number (String.ofList ds) rest
  | decimal {ds ps rest : List Char} (hds : ds ≠ []) (hd : ∀ d ∈ ds, Number.isDigit d = true)
      (hps : ps ≠ []) (hp : ∀ d ∈ ps, Number.isDigit d = true) :
      Belongs .number (ds ++ '.' :: ps) .number (String.ofList (ds ++ '.' :: ps)) rest
  | text {content rest : List Char} (h : '"' ∉ content) :
      Belongs .text ('"' :: (content ++ ['"'])) .text (String.ofList content) rest
  | openText {content : List Char} (h : '"' ∉ content) :
      Belongs .text ('"' :: content) .text (String.ofList content) []
  | character {c : Char} {rest : List Char} :
      Belongs .character ['\'', c, '\''] .character c.toString rest
  | word {c : Char} {cs rest : List Char} {kind : Token.Kind} {lexeme : String}
      (hc : startsWord c = true) (hcs : ∀ d ∈ cs, continuesWord d = true)
      (h : WordAs (c :: cs) kind lexeme) : Belongs .word (c :: cs) kind lexeme rest
  | symbol {s : Symbol} {rest : List Char} :
      Belongs .symbol s.spelling.toList (.symbol s) s.spelling rest

def ruleOf (c : Char) : Rule :=
  if Number.isDigit c then .number
  else if c = '"' then .text
  else if c = '\'' then .character
  else if startsWord c then .word
  else .symbol

theorem le_of_isAlphabetic {c : Char} (h : isAlphabetic c = true) : 65 ≤ c.toNat := by
  have hall : ∀ r ∈ alphabetic, 65 ≤ r.1 := by decide +kernel
  obtain ⟨r, hr, hc⟩ := List.any_eq_true.1 h
  have hle : r.1 ≤ c.toNat := by
    rw [Bool.and_eq_true] at hc
    exact of_decide_eq_true hc.1
  exact Nat.le_trans (hall r hr) hle

theorem le_of_startsWord {c : Char} (h : startsWord c = true) : 65 ≤ c.toNat := by
  rcases Bool.or_eq_true_iff.1 h with ha | hl
  · exact le_of_isAlphabetic ha
  · rw [beq_iff_eq] at hl
    subst hl
    decide

theorem ruleOf_digit {c : Char} (h : Number.isDigit c = true) : ruleOf c = .number := by
  simp [ruleOf, h]

theorem ruleOf_startsWord {c : Char} (h : startsWord c = true) : ruleOf c = .word := by
  have hle := le_of_startsWord h
  have hdigit : Number.isDigit c = false := by
    by_contra hd
    have hnine : c.toNat ≤ 57 := Number.toNat_le_of_isDigit (by simpa using hd)
    omega
  have hquote : c ≠ '"' := by
    rintro rfl
    exact absurd hle (by decide)
  have happostrophe : c ≠ '\'' := by
    rintro rfl
    exact absurd hle (by decide)
  simp [ruleOf, hdigit, hquote, happostrophe, h]

theorem mem_symbols (s : Symbol) : s ∈ Symbol.all := by
  cases s <;> decide

theorem ruleOf_symbol {s : Symbol} {c : Char} {cs : List Char}
    (h : s.spelling.toList = c :: cs) : ruleOf c = .symbol := by
  have hall : ∀ s ∈ Symbol.all, s.spelling.toList.head?.map ruleOf = some .symbol := by
    decide +kernel
  have hhead := hall s (mem_symbols s)
  rw [h] at hhead
  exact Option.some.inj hhead

/-- The first character of a token tells by which rule it is one. -/
theorem Belongs.ruleOf_eq {rule : Rule} {c : Char} {ps rest : List Char} {kind : Token.Kind}
    {lexeme : String} (h : Belongs rule (c :: ps) kind lexeme rest) : ruleOf c = rule := by
  generalize hp : c :: ps = piece at h
  cases h with
  | whole hne hd =>
    subst hp
    exact ruleOf_digit (hd c List.mem_cons_self)
  | @decimal ds qs _ hds hd hqs hq =>
    cases ds with
    | nil => contradiction
    | cons b bs =>
      obtain ⟨rfl, -⟩ := List.cons.inj hp
      exact ruleOf_digit (hd c List.mem_cons_self)
  | text | openText | character =>
    obtain ⟨rfl, -⟩ := List.cons.inj hp
    decide
  | word hc =>
    obtain ⟨rfl, -⟩ := List.cons.inj hp
    exact ruleOf_startsWord hc
  | symbol => exact ruleOf_symbol hp.symm

/-- What is read at the front of a text is the longest token there by a rule, or none is there. -/
def IsLongest (rule : Rule) (c : Char) (rest : List Char) : Piece → Prop
  | ⟨.blank, _⟩ => False
  | ⟨.token kind lexeme, more⟩ =>
    (∃ ps rest', rest = ps ++ rest' ∧ ps.length = more ∧
      Belongs rule (c :: ps) kind lexeme rest') ∧
      ∀ ps kind' lexeme' rest', rest = ps ++ rest' →
        Belongs rule (c :: ps) kind' lexeme' rest' →
        ps.length ≤ more ∧ (ps.length = more → kind' = kind ∧ lexeme' = lexeme)
  | ⟨.fault _, _⟩ =>
    ∀ ps kind lexeme rest', rest = ps ++ rest' → ¬Belongs rule (c :: ps) kind lexeme rest'

section

variable {c : Char} {rest : List Char}

/-- Either the digits after a point count, or there are none. -/
theorem placesLength_cases (cs : List Char) :
    (placesLength cs = 0 ∧ ∀ qs ws, cs = '.' :: (qs ++ ws) →
      (∀ d ∈ qs, Number.isDigit d = true) → qs = []) ∨
    ∃ qs ws, cs = '.' :: (qs ++ ws) ∧ qs ≠ [] ∧ (∀ d ∈ qs, Number.isDigit d = true) ∧
      (∀ d vs, ws = d :: vs → Number.isDigit d = false) ∧ placesLength cs = qs.length + 1 := by
  by_cases hpoint : ∃ tail, cs = '.' :: tail
  · obtain ⟨tail, rfl⟩ := hpoint
    obtain ⟨qs, ws, rfl, hq, hw⟩ := List.exists_takeWhile Number.isDigit tail
    have htake := List.takeWhile_append_of_head hq hw
    by_cases hne : qs = []
    · subst hne
      left
      constructor
      · simp only [placesLength, htake]
        rfl
      · intro qs' ws' h hd
        have hle := List.length_le_of_append_eq (List.cons.inj h).2 hq hw hd
        exact List.length_eq_zero_iff.1 (Nat.le_zero.1 hle)
    · right
      refine ⟨qs, ws, rfl, hne, hq, hw, ?_⟩
      simp only [placesLength, htake, List.isEmpty_iff, hne, if_false]
  · left
    constructor
    · unfold placesLength
      split
      · exact absurd ⟨_, rfl⟩ hpoint
      · rfl
    · intro qs ws h
      exact absurd ⟨_, h⟩ hpoint

theorem not_isDigit_point : Number.isDigit '.' = false := by decide

/-- A number takes no more than the digits at the front and the places behind them. -/
theorem Belongs.of_digits {us vs ps rest' : List Char} {kind : Token.Kind} {lexeme : String}
    (hb : Belongs .number (c :: ps) kind lexeme rest') (h : us ++ vs = ps ++ rest')
    (hus : ∀ d ∈ us, Number.isDigit d = true)
    (hvs : ∀ d ws, vs = d :: ws → Number.isDigit d = false) :
    ps.length ≤ us.length + placesLength vs ∧ kind = .number ∧
      lexeme = String.ofList (c :: ps) := by
  generalize hp : c :: ps = piece at hb
  cases hb with
  | whole hne hd =>
    rw [← hp] at hd
    have hle := List.length_le_of_append_eq h hus hvs (List.forall_mem_cons.1 hd).2
    exact ⟨by omega, rfl, rfl⟩
  | @decimal ds qs _ hds hd hqs hq =>
    obtain ⟨b, bs, rfl⟩ := List.exists_cons_of_ne_nil hds
    rw [List.cons_append, List.cons.injEq] at hp
    obtain ⟨rfl, rfl⟩ := hp
    rw [List.append_assoc] at h
    have hpoint : ∀ d ws, '.' :: qs ++ rest' = d :: ws → Number.isDigit d = false := by
      intro d ws hd
      rw [← (List.cons.inj hd).1]
      exact not_isDigit_point
    -- The point ends the digits on both sides, so the places are compared from the point on.
    obtain ⟨rfl, rfl⟩ := List.eq_of_append_eq h hus hvs (List.forall_mem_cons.1 hd).2 hpoint
    refine ⟨?_, rfl, rfl⟩
    rcases placesLength_cases ('.' :: qs ++ rest') with
      ⟨-, hnone⟩ | ⟨qs', ws, heq, -, hq', hw, hlength⟩
    · exact absurd (hnone qs rest' rfl hq) hqs
    · have hle := List.length_le_of_append_eq (List.cons.inj heq).2.symm hq' hw hq
      rw [hlength, List.length_append, List.length_cons]
      omega

/-- A number is read with the point and the digits behind it, if there are any. -/
theorem isLongest_number (hc : Number.isDigit c = true) :
    IsLongest .number c rest (number c rest) := by
  obtain ⟨us, vs, rfl, hus, hvs⟩ := List.exists_takeWhile Number.isDigit rest
  unfold number
  simp only [List.takeWhile_append_of_head hus hvs, List.drop_left]
  have hdigits : ∀ d ∈ c :: us, Number.isDigit d = true := List.forall_mem_cons.2 ⟨hc, hus⟩
  constructor
  · rcases placesLength_cases vs with ⟨hzero, -⟩ | ⟨qs, ws, rfl, hne, hq, -, hlength⟩
    · refine ⟨us, vs, rfl, by rw [hzero, Nat.add_zero], ?_⟩
      rw [hzero, Nat.add_zero, List.take_left]
      exact .whole (List.cons_ne_nil c us) hdigits
    · have hsplit : us ++ '.' :: (qs ++ ws) = us ++ '.' :: qs ++ ws := by simp
      have hmore : (us ++ '.' :: qs).length = us.length + placesLength ('.' :: (qs ++ ws)) := by
        simp [hlength]
      refine ⟨us ++ '.' :: qs, ws, hsplit, hmore, ?_⟩
      rw [hsplit, List.take_left' hmore]
      exact .decimal (List.cons_ne_nil c us) hdigits hne hq
  · intro ps kind lexeme rest' h hb
    obtain ⟨hle, hkind, hlexeme⟩ := hb.of_digits h hus hvs
    refine ⟨hle, fun heq => ⟨hkind, ?_⟩⟩
    rw [hlexeme, h, ← heq, List.take_left]

theorem isLongest_text : IsLongest .text '"' rest (text rest) := by
  obtain ⟨content, vs, rfl, hcontent, hvs⟩ := List.exists_takeWhile (· != '"') rest
  have hquote : '"' ∉ content := fun hmem => absurd (hcontent '"' hmem) (by decide)
  unfold text
  simp only [List.takeWhile_append_of_head hcontent hvs, List.drop_left]
  cases vs with
  | nil =>
    simp only [List.append_nil, List.isEmpty_nil, if_true, Nat.add_zero]
    refine ⟨⟨content, [], by simp, rfl, .openText hquote⟩, ?_⟩
    intro ps kind lexeme rest' h hb
    cases hb with
    | text h' =>
      rw [h] at hquote
      simp at hquote
    | openText h' =>
      rw [List.append_nil] at h
      subst h
      exact ⟨Nat.le_refl _, fun _ => ⟨rfl, rfl⟩⟩
  | cons d ws =>
    obtain rfl : d = '"' := by simpa using hvs d ws rfl
    simp only [List.isEmpty_cons, Bool.false_eq_true, if_false]
    refine ⟨⟨content ++ ['"'], ws, by simp, by simp, .text hquote⟩, ?_⟩
    intro ps kind lexeme rest' h hb
    cases hb with
    | @text content' _ h' =>
      have hcontent' : ∀ c ∈ content', (c != '"') = true := by
        intro c hc
        simpa using fun heq : c = '"' => h' (heq ▸ hc)
      rw [List.append_assoc] at h
      have hws : ∀ c vs, ['"'] ++ rest' = c :: vs → (c != '"') = false := by
        intro c vs hc
        simp [← (List.cons.inj hc).1]
      obtain ⟨rfl, -⟩ := List.eq_of_append_eq h hcontent hvs hcontent' hws
      exact ⟨by simp, fun _ => ⟨rfl, rfl⟩⟩
    | openText h' =>
      rw [List.append_nil] at h
      rw [← h] at h'
      simp at h'

theorem isLongest_character : IsLongest .character '\'' rest (character rest) := by
  unfold character
  split
  · intro ps kind lexeme rest' h hb
    cases hb
    cases h
  · rename_i d ws
    refine ⟨⟨[d, '\''], ws, rfl, rfl, .character⟩, ?_⟩
    intro ps kind lexeme rest' h hb
    cases hb
    cases h
    exact ⟨Nat.le_refl 2, fun _ => ⟨rfl, rfl⟩⟩
  · rename_i d ws hne
    intro ps kind lexeme rest' h hb
    cases hb
    cases h
    exact hne _ rfl

theorem exists_word_eq (cs : List Char) :
    ∃ kind lexeme, word cs = .token kind lexeme ∧ WordAs cs kind lexeme := by
  unfold word
  dsimp only
  split
  · rename_i h
    exact ⟨_, _, rfl, .boolean (by simpa using h) rfl⟩
  · rename_i hb
    split
    · rename_i k hk
      have hspelling : k.spelling = String.ofList (upperCase cs) := by
        simpa using List.find?_some hk
      rw [← hspelling]
      exact ⟨_, _, rfl, .keyword (List.mem_of_find?_eq_some hk) hspelling.symm⟩
    · rename_i hnone
      refine ⟨_, _, rfl, .identifier (by simpa using hb) fun k hk heq => ?_⟩
      have hne := List.find?_eq_none.1 hnone k hk
      simp [heq] at hne

/-- A word stands for one kind of token only. -/
theorem WordAs.unique {cs : List Char} {kind kind' : Token.Kind} {lexeme lexeme' : String}
    (h : WordAs cs kind lexeme) (h' : WordAs cs kind' lexeme') :
    kind' = kind ∧ lexeme' = lexeme := by
  have hother : ∀ k ∈ Keyword.single, k.spelling ∉ [Value.trueWord, Value.falseWord] := by decide
  have hinjective : ∀ k ∈ Keyword.single, ∀ k' ∈ Keyword.single, k.spelling = k'.spelling →
      k = k' := by decide
  cases h with
  | boolean hw hu =>
    cases h' with
    | boolean hw' hu' => exact ⟨rfl, hu'.symm.trans hu⟩
    | keyword hk hu' => exact absurd (hu.symm.trans hu' ▸ hw) (hother _ hk)
    | identifier hb => exact absurd (hu ▸ hw) hb
  | keyword hk hu =>
    cases h' with
    | boolean hw' hu' => exact absurd (hu'.symm.trans hu ▸ hw') (hother _ hk)
    | keyword hk' hu' =>
      obtain rfl := hinjective _ hk _ hk' (hu.symm.trans hu')
      exact ⟨rfl, rfl⟩
    | identifier hb hnone => exact absurd hu (hnone _ hk)
  | identifier hb hnone =>
    cases h' with
    | boolean hw' hu' => exact absurd (hu' ▸ hw') hb
    | keyword hk' hu' => exact absurd hu' (hnone _ hk')
    | identifier => exact ⟨rfl, rfl⟩

/-- A word is read as far as it goes on. -/
theorem isLongest_word (hc : startsWord c = true) :
    IsLongest .word c rest
      ⟨word (c :: rest.takeWhile continuesWord), (rest.takeWhile continuesWord).length⟩ := by
  obtain ⟨us, vs, rfl, hus, hvs⟩ := List.exists_takeWhile continuesWord rest
  rw [List.takeWhile_append_of_head hus hvs]
  obtain ⟨kind, lexeme, hword, has⟩ := exists_word_eq (c :: us)
  rw [hword]
  refine ⟨⟨us, vs, rfl, rfl, .word hc hus has⟩, ?_⟩
  intro ps kind' lexeme' rest' h hb
  cases hb with
  | word hc' hps has' =>
    refine ⟨List.length_le_of_append_eq h hus hvs hps, fun heq => ?_⟩
    obtain ⟨rfl, rfl⟩ := List.append_inj h heq.symm
    exact has.unique has'

/-- No symbol has a spelling that begins that of a later one. -/
theorem pairwise_symbols : Symbol.all.Pairwise fun s s' =>
    ¬s.spelling.toList <+: s'.spelling.toList := by
  decide +kernel

theorem isPrefix_of_symbol? {cs : List Char} {s : Symbol} (h : symbol? cs = some s) :
    s.spelling.toList <+: cs := by
  obtain ⟨hbegins, -⟩ := List.find?_eq_some_iff_append.1 h
  exact List.isPrefixOf_iff_prefix.1 hbegins

/-- Of the symbols that a text begins with, the one that is found is the longest. -/
theorem length_le_of_symbol? {cs : List Char} {s s' : Symbol} (hs : symbol? cs = some s)
    (hs' : s'.spelling.toList <+: cs) :
    s'.spelling.toList.length ≤ s.spelling.toList.length ∧
      (s'.spelling.toList.length = s.spelling.toList.length → s' = s) := by
  obtain ⟨-, before, after, hall, hbefore⟩ := List.find?_eq_some_iff_append.1 hs
  have hbegins := isPrefix_of_symbol? hs
  have hmem := mem_symbols s'
  have hpairwise := pairwise_symbols
  rw [hall] at hmem hpairwise
  rcases List.mem_append.1 hmem with hmem | hmem
  · have hno := hbefore s' hmem
    simp [List.isPrefixOf_iff_prefix.2 hs'] at hno
  rcases List.mem_cons.1 hmem with rfl | hmem
  · exact ⟨Nat.le_refl _, fun _ => rfl⟩
  · have hno := (List.pairwise_cons.1 (List.pairwise_append.1 hpairwise).2.1).1 s' hmem
    have hlt : s'.spelling.toList.length < s.spelling.toList.length := by
      by_contra hge
      exact hno (List.prefix_of_prefix_length_le hbegins hs' (Nat.le_of_not_lt hge))
    exact ⟨Nat.le_of_lt hlt, fun heq => absurd heq (Nat.ne_of_lt hlt)⟩

/-- Of the symbols in front the longest is read. -/
theorem isLongest_symbol :
    IsLongest .symbol c rest (match symbol? (c :: rest) with
      | some s => ⟨.token (.symbol s) s.spelling, s.spelling.length - 1⟩
      | none => ⟨.fault (.unexpectedCharacter c), 0⟩) := by
  cases hs : symbol? (c :: rest) with
  | none =>
    intro ps kind lexeme rest' h hb
    generalize hp : c :: ps = piece at hb
    cases hb with
    | @symbol s _ =>
      have hno := List.find?_eq_none.1 hs s (mem_symbols s)
      rw [← hp, h] at hno
      simp at hno
  | some s =>
    have hbegins := isPrefix_of_symbol? hs
    have hne : s.spelling.toList ≠ [] := by cases s <;> decide
    obtain ⟨b, tail, htail⟩ := List.exists_cons_of_ne_nil hne
    rw [htail] at hbegins
    obtain ⟨ws, hws⟩ := hbegins
    rw [List.cons_append, List.cons.injEq] at hws
    obtain ⟨rfl, rfl⟩ := hws
    have hlength : s.spelling.length - 1 = tail.length := by
      rw [← String.length_toList, htail]
      rfl
    dsimp only
    rw [hlength]
    have hbelongs : Belongs .symbol s.spelling.toList (.symbol s) s.spelling ws := .symbol
    rw [htail] at hbelongs
    refine ⟨⟨tail, ws, rfl, rfl, hbelongs⟩, ?_⟩
    intro ps kind lexeme rest' h hb
    generalize hp : b :: ps = piece at hb
    cases hb with
    | @symbol s' _ =>
      have hbegins' : s'.spelling.toList <+: b :: (tail ++ ws) := by
        rw [← hp, h]
        exact ⟨rest', rfl⟩
      obtain ⟨hle, heq⟩ := length_le_of_symbol? hs hbegins'
      rw [htail, ← hp, List.length_cons, List.length_cons] at hle heq
      refine ⟨Nat.le_of_succ_le_succ hle, fun hlen => ?_⟩
      obtain rfl := heq (congrArg Nat.succ hlen)
      exact ⟨rfl, rfl⟩

def Skips (cs : List Char) : Prop :=
  (∃ c rest, cs = c :: rest ∧ isWhiteSpace c = true) ∨ ∃ rest, cs = '-' :: '-' :: rest

/-- Where nothing is passed over, what is read is the longest token. -/
theorem isLongest_read (h : ¬Skips (c :: rest)) : IsLongest (ruleOf c) c rest (read c rest) := by
  have hwhite : ¬isWhiteSpace c = true := fun hw => h (.inl ⟨c, rest, rfl, hw⟩)
  have hcomment : ¬(c = '-' ∧ rest.head? = some '-') := by
    rintro ⟨rfl, hhead⟩
    obtain ⟨tail, rfl⟩ := List.head?_eq_some_iff.1 hhead
    exact h (.inr ⟨tail, rfl⟩)
  unfold read ruleOf
  rw [if_neg hwhite, if_neg hcomment]
  by_cases hdigit : Number.isDigit c = true
  · rw [if_pos hdigit, if_pos hdigit]
    exact isLongest_number hdigit
  rw [if_neg hdigit, if_neg hdigit]
  by_cases hquote : c = '"'
  · rw [if_pos hquote, if_pos hquote, hquote]
    exact isLongest_text
  rw [if_neg hquote, if_neg hquote]
  by_cases happostrophe : c = '\''
  · rw [if_pos happostrophe, if_pos happostrophe, happostrophe]
    exact isLongest_character
  rw [if_neg happostrophe, if_neg happostrophe]
  by_cases hword : startsWord c = true
  · rw [if_pos hword, if_pos hword]
    exact isLongest_word hword
  · rw [if_neg hword, if_neg hword]
    exact isLongest_symbol

end

end BisayaPlus.Lexeme
