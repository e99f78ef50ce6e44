import BisayaPlus.Proofs.LongestMatch

/-!
How a token is written. Booleans and keywords may be written in any way that has the right upper
case, and a keyword of two words with white space and comments between them. A token that is
followed by white space or by the end of the source is the longest one at its place, so it is read
back whatever stands behind the white space.
-/

namespace BisayaPlus

open Lexeme Text

namespace Text

/-- Some letters that follow each other are letters if one interval holds the first and the last of
them. -/
theorem isAlphabetic_of_between {m n : Nat} {c : Char}
    (h : alphabetic.any (fun i => i.1.ble m && n.ble i.2) = true) (hm : m ≤ c.toNat)
    (hn : c.toNat ≤ n) : isAlphabetic c = true := by
  obtain ⟨i, hi, hbounds⟩ := List.any_eq_true.1 h
  rw [Bool.and_eq_true, Nat.ble_eq, Nat.ble_eq] at hbounds
  have hl := Nat.le_trans hbounds.1 hm
  have hu := Nat.le_trans hn hbounds.2
  exact List.any_eq_true.2 ⟨i, hi, by simp [hl, hu]⟩

theorem isAlphabetic_of_letterRun {r : LetterRun} (hr : r ∈ letterRuns) {c : Char}
    (hl : r.first ≤ c.toNat) (hu : c.toNat ≤ r.last) : isAlphabetic c = true := by
  have hall : letterRuns.all (fun r =>
      alphabetic.any fun i => i.1.ble r.first && r.last.ble i.2) = true := by
    decide +kernel
  exact isAlphabetic_of_between (List.all_eq_true.1 hall r hr) hl hu

theorem isAlphabetic_of_expandingLetter {ns : List Nat} {c : Char}
    (h : (c.toNat, ns) ∈ expandingLetters) : isAlphabetic c = true := by
  have hall : expandingLetters.all (fun e =>
      alphabetic.any fun i => i.1.ble e.1 && e.1.ble i.2) = true := by
    decide +kernel
  exact isAlphabetic_of_between (List.all_eq_true.1 hall _ h) (Nat.le_refl _) (Nat.le_refl _)

/-- A character with an upper case is a letter. -/
theorem isAlphabetic_of_toUpper_ne {c : Char} (h : c.toUpper ≠ c) : isAlphabetic c = true := by
  have hbounds : 97 ≤ c.toNat ∧ c.toNat ≤ 122 := by
    by_contra hout
    refine h ?_
    unfold Char.toUpper
    rw [dif_neg]
    rintro ⟨hl, hu⟩
    exact hout ⟨hl, hu⟩
  exact isAlphabetic_of_between (by decide) hbounds.1 hbounds.2

/-- Only letters have another upper case than themselves. -/
theorem isAlphabetic_of_capitals_ne {c : Char} (h : capitals c ≠ [c]) : isAlphabetic c = true := by
  unfold capitals at h
  split at h
  · exact isAlphabetic_of_toUpper_ne fun heq => h (congrArg (fun d => [d]) heq)
  split at h
  · rename_i n hn
    obtain ⟨r, hr, hcapital⟩ := List.exists_of_findSome?_eq_some hn
    unfold LetterRun.capital? at hcapital
    split at hcapital
    · rename_i hbounds
      exact isAlphabetic_of_letterRun hr hbounds.1 hbounds.2.1
    · cases hcapital
  split at h
  · rename_i ns hns
    obtain ⟨l₁, l₂, hsplit, -⟩ := List.lookup_eq_some_iff.1 hns
    have hmem : (c.toNat, ns) ∈ expandingLetters := by simp [hsplit]
    exact isAlphabetic_of_expandingLetter hmem
  · exact absurd rfl h

/-- A text whose upper case is made of letters is made of letters. -/
theorem isAlphabetic_of_upperCase {cs : List Char}
    (h : ∀ d ∈ upperCase cs, isAlphabetic d = true) : ∀ c ∈ cs, isAlphabetic c = true := by
  intro c hc
  by_cases hcapitals : capitals c = [c]
  · exact h c (List.mem_flatMap.2 ⟨c, hc, by simp [hcapitals]⟩)
  · exact isAlphabetic_of_capitals_ne hcapitals

/-- White space is apart from letters and digits of any kind. -/
theorem isAlphanumeric_eq_false_of_isWhiteSpace {c : Char} (h : isWhiteSpace c = true) :
    isAlphanumeric c = false := by
  have hall : whiteSpace.all (fun r =>
      (alphabetic ++ numeric).all fun i => r.2.blt i.1 || i.2.blt r.1) = true := by
    decide +kernel
  obtain ⟨r, hr, hc⟩ := List.any_eq_true.1 h
  rw [Bool.and_eq_true, decide_eq_true_eq, decide_eq_true_eq] at hc
  rw [isAlphanumeric, Intervals.contains, Intervals.contains, ← List.any_append,
    List.any_eq_false]
  intro i hi
  rw [Bool.and_eq_true, decide_eq_true_eq, decide_eq_true_eq]
  have hapart := List.all_eq_true.1 (List.all_eq_true.1 hall r hr) i hi
  rw [Bool.or_eq_true, Nat.blt_eq, Nat.blt_eq] at hapart
  omega

end Text

namespace Token

/-- The lexemes that the tokens of a kind can have. -/
inductive Regular : Kind → String → Prop
  | whole {ds : List Char} (hne : ds ≠ []) (hd : ∀ d ∈ ds, Number.isDigit d = true) :
      Regular .number (String.ofList ds)
  | decimal {ds ps : List Char} (hds : ds ≠ []) (hd : ∀ d ∈ ds, Number.isDigit d = true)
      (hps : ps ≠ []) (hp : ∀ d ∈ ps, Number.isDigit d = true) :
      Regular .number (String.ofList (ds ++ '.' :: ps))
  | text {content : List Char} (h : '"' ∉ content) : Regular .text (String.ofList content)
  | character {c : Char} : Regular .character c.toString
  | boolean {w : String} (hw : w ∈ [Value.trueWord, Value.falseWord]) : Regular .boolean w
  | keyword {k : Keyword} : Regular (.keyword k) k.spelling
  | symbol {s : Symbol} : Regular (.symbol s) s.spelling
  | identifier {c : Char} {cs : List Char} (hc : startsWord c = true)
      (hcs : ∀ d ∈ cs, continuesWord d = true)
      (hb : String.ofList (upperCase (c :: cs)) ∉ [Value.trueWord, Value.falseWord])
      (hk : ∀ k ∈ Keyword.single, String.ofList (upperCase (c :: cs)) ≠ k.spelling) :
      Regular .identifier (String.ofList (c :: cs))

inductive Spelled : Kind → String → List Char → Prop
  | number {lexeme : String} : Spelled .number lexeme lexeme.toList
  | text {lexeme : String} : Spelled .text lexeme ('"' :: (lexeme.toList ++ ['"']))
  | character {lexeme : String} : Spelled .character lexeme ('\'' :: (lexeme.toList ++ ['\'']))
  | symbol {s : Symbol} : Spelled (.symbol s) s.spelling s.spelling.toList
  | identifier {lexeme : String} : Spelled .identifier lexeme lexeme.toList
  | boolean {lexeme : String} {cs : List Char} (h : String.ofList (upperCase cs) = lexeme) :
      Spelled .boolean lexeme cs
  | keyword {k : Keyword} {cs : List Char} (hk : k ∈ Keyword.single)
      (h : String.ofList (upperCase cs) = k.spelling) : Spelled (.keyword k) k.spelling cs

/-- A word in any spelling with the upper case of a boolean or a keyword is shaped like a word. -/
theorem exists_startsWord_of_upperCase {cs : List Char} {w : String}
    (hw : w ≠ "" ∧ ∀ d ∈ w.toList, isAlphabetic d = true)
    (h : String.ofList (upperCase cs) = w) :
    ∃ c ds, cs = c :: ds ∧ startsWord c = true ∧ ∀ d ∈ ds, continuesWord d = true := by
  obtain ⟨hne, hletters⟩ := hw
  rw [← h, String.toList_ofList] at hletters
  have hall := isAlphabetic_of_upperCase hletters
  cases cs with
  | nil => exact absurd h.symm hne
  | cons c ds =>
    obtain ⟨hc, hds⟩ := List.forall_mem_cons.1 hall
    refine ⟨c, ds, rfl, by simp [startsWord, hc], fun d hd => ?_⟩
    have hd := hds d hd
    unfold isAlphabetic at hd
    simp [continuesWord, isAlphanumeric, hd]

/-- The words that stand for booleans and keywords, and the second words of keywords. -/
def fixedWords : List String :=
  [Value.trueWord, Value.falseWord] ++ secondWords.map Prod.fst ++
    Keyword.single.map Keyword.spelling

/-- The fixed words are made of letters. -/
theorem isAlphabetic_of_mem_fixedWords {w : String} (hw : w ∈ fixedWords) :
    w ≠ "" ∧ ∀ d ∈ w.toList, isAlphabetic d = true := by
  have hall : fixedWords.all (fun w => w != "" && w.toList.all isAlphabetic) = true := by
    decide +kernel
  simpa using List.all_eq_true.1 hall w hw

/-- A fixed word belongs to its rule in any spelling. -/
theorem belongs_word_of_mem_fixedWords {cs : List Char} {w : String} {kind : Kind}
    {lexeme : String} (hw : w ∈ fixedWords) (hu : String.ofList (upperCase cs) = w)
    (has : WordAs cs kind lexeme) (rest : List Char) : Belongs .word cs kind lexeme rest := by
  obtain ⟨c, ds, rfl, hc, hds⟩ :=
    exists_startsWord_of_upperCase (isAlphabetic_of_mem_fixedWords hw) hu
  exact .word hc hds has

/-- What is written for a token belongs to it, whatever follows. -/
theorem Spelled.exists_belongs {kind : Kind} {lexeme : String} {cs : List Char}
    (h : Spelled kind lexeme cs) (hr : Regular kind lexeme) (rest : List Char) :
    ∃ rule, Belongs rule cs kind lexeme rest := by
  cases h with
  | number =>
    cases hr with
    | whole hne hd =>
      rw [String.toList_ofList]
      exact ⟨_, .whole hne hd⟩
    | decimal hds hd hps hp =>
      rw [String.toList_ofList]
      exact ⟨_, .decimal hds hd hps hp⟩
  | text =>
    cases hr with
    | text hq =>
      rw [String.toList_ofList]
      exact ⟨_, .text hq⟩
  | character =>
    cases hr with
    | @character c =>
      have hc : c.toString.toList = [c] := String.toList_singleton c
      rw [hc]
      exact ⟨_, .character⟩
  | symbol => exact ⟨_, .symbol⟩
  | identifier =>
    cases hr with
    | identifier hc hcs hb hk =>
      rw [String.toList_ofList]
      exact ⟨_, .word hc hcs (.identifier hb hk)⟩
  | boolean hu =>
    cases hr with
    | boolean hw =>
      have hmem : lexeme ∈ fixedWords :=
        List.mem_append_left _ (List.mem_append_left _ hw)
      exact ⟨_, belongs_word_of_mem_fixedWords hmem hu (.boolean hw hu) rest⟩
  | keyword hk hu =>
    have hmem : Keyword.spelling _ ∈ fixedWords :=
      List.mem_append_right _ (List.mem_map_of_mem hk)
    exact ⟨_, belongs_word_of_mem_fixedWords hmem hu (.keyword hk hu) rest⟩

def Parted (rest : List Char) : Prop :=
  ∀ c cs, rest = c :: cs → isWhiteSpace c = true

theorem continuesWord_of_startsWord {c : Char} (h : startsWord c = true) :
    continuesWord c = true := by
  unfold startsWord isAlphabetic at h
  unfold continuesWord isAlphanumeric
  rcases Bool.or_eq_true_iff.1 h with ha | hl
  · simp [ha]
  · simp [hl]

theorem continuesWord_of_isDigit {c : Char} (h : Number.isDigit c = true) :
    continuesWord c = true := by
  simp only [Number.isDigit, Bool.and_eq_true, decide_eq_true_eq] at h
  have hdigits : ((48, 57) : Nat × Nat) ∈ numeric := by decide
  have hnumeric : numeric.contains c = true := by
    refine List.any_eq_true.2 ⟨_, hdigits, ?_⟩
    rw [Bool.and_eq_true]
    exact ⟨decide_eq_true h.1, decide_eq_true h.2⟩
  simp [continuesWord, isAlphanumeric, hnumeric]

theorem isWhiteSpace_eq_false_of_continuesWord {c : Char} (h : continuesWord c = true) :
    isWhiteSpace c = false := by
  by_contra hw
  rw [Bool.not_eq_false] at hw
  rcases Bool.or_eq_true_iff.1 h with ha | hl
  · rw [isAlphanumeric_eq_false_of_isWhiteSpace hw] at ha
    cases ha
  · rw [beq_iff_eq] at hl
    subst hl
    exact absurd hw (by decide)

section

variable {rule : Rule} {piece rest : List Char} {kind : Kind} {lexeme : String}

/-- Only a text or a character can hold white space. -/
theorem isWhiteSpace_eq_false_of_mem (h : Belongs rule piece kind lexeme rest) (ht : rule ≠ .text)
    (hc : rule ≠ .character) : ∀ c ∈ piece, isWhiteSpace c = false := by
  have hdigit : ∀ d, Number.isDigit d = true → isWhiteSpace d = false :=
    fun d hd => isWhiteSpace_eq_false_of_continuesWord (continuesWord_of_isDigit hd)
  intro c hmem
  cases h with
  | whole hne hd => exact hdigit c (hd c hmem)
  | decimal hds hd hps hp =>
    rcases List.mem_append.1 hmem with hmem | hmem
    · exact hdigit c (hd c hmem)
    rcases List.mem_cons.1 hmem with rfl | hmem
    · decide
    · exact hdigit c (hp c hmem)
  | text | openText => exact absurd rfl ht
  | character => exact absurd rfl hc
  | word hs hcs =>
    rcases List.mem_cons.1 hmem with rfl | hmem
    · exact isWhiteSpace_eq_false_of_continuesWord (continuesWord_of_startsWord hs)
    · exact isWhiteSpace_eq_false_of_continuesWord (hcs c hmem)
  | @symbol s =>
    have hall : Symbol.all.all (fun s => s.spelling.toList.all (!isWhiteSpace ·)) = true := by
      decide +kernel
    simpa using List.all_eq_true.1 (List.all_eq_true.1 hall s (mem_symbols s)) c hmem

/-- No token begins with white space. -/
theorem isWhiteSpace_eq_false_of_cons {c : Char} {ps : List Char}
    (h : Belongs rule (c :: ps) kind lexeme rest) : isWhiteSpace c = false := by
  by_cases hquoted : rule = .text ∨ rule = .character
  · generalize hp : c :: ps = piece at h
    cases h with
    | text | openText | character =>
      obtain ⟨rfl, -⟩ := List.cons.inj hp
      decide
    | _ => simp at hquoted
  · rw [not_or] at hquoted
    exact isWhiteSpace_eq_false_of_mem h hquoted.1 hquoted.2 c List.mem_cons_self

/-- Nothing is passed over in front of a token. A minus sign does not begin a comment if white
space follows it. -/
theorem not_skips_of_belongs (h : Belongs rule piece kind lexeme rest) (hp : Parted rest) :
    ¬Skips (piece ++ rest) := by
  obtain ⟨c, ps, rfl⟩ := exists_cons_of_belongs h
  rintro (⟨d, cs, heq, hd⟩ | ⟨cs, heq⟩)
  · obtain ⟨rfl, -⟩ := List.cons.inj heq
    rw [isWhiteSpace_eq_false_of_cons h] at hd
    cases hd
  · obtain ⟨rfl, htail⟩ := List.cons.inj heq
    obtain rfl : rule = .symbol := h.ruleOf_eq.symm.trans (by decide +kernel)
    generalize hpiece : '-' :: ps = piece at h
    cases h with
    | @symbol s =>
      have hall : ∀ s ∈ Symbol.all, s.spelling.toList.head? = some '-' →
          s.spelling.toList = ['-'] := by
        decide +kernel
      have hminus := hall s (mem_symbols s) (by rw [← hpiece]; rfl)
      obtain ⟨-, rfl⟩ := List.cons.inj (hpiece.trans hminus)
      exact absurd (hp '-' cs htail) (by decide)

/-- A text does not go on behind its closing quote. -/
theorem eq_nil_of_belongs_text {more rest' : List Char} {kind' : Kind} {lexeme' : String}
    (h : Belongs .text piece kind lexeme rest) (hne : rest ≠ [])
    (h' : Belongs .text (piece ++ more) kind' lexeme' rest') : more = [] := by
  have hopen : ∀ content : List Char, '"' ∉ content →
      ∀ c ∈ content, (c != '"') = true := by
    intro content hcontent c hc
    simpa using fun heq : c = '"' => hcontent (heq ▸ hc)
  have hclosed : ∀ tail : List Char, ∀ c vs, '"' :: tail = c :: vs → (c != '"') = false := by
    intro tail c vs heq
    simp [← (List.cons.inj heq).1]
  cases h with
  | openText => exact absurd rfl hne
  | @text content _ hq =>
    generalize hpiece : '"' :: (content ++ ['"']) ++ more = piece' at h'
    cases h' with
    | @text content' _ hq' =>
      have hcontent : content ++ '"' :: more = content' ++ ['"'] := by
        simpa using hpiece
      obtain ⟨-, htail⟩ :=
        List.eq_of_append_eq hcontent (hopen _ hq) (hclosed _) (hopen _ hq') (hclosed _)
      exact (List.cons.inj htail).2
    | openText hq' =>
      obtain rfl := (List.cons.inj hpiece).2
      simp at hq'

/-- A token is the longest one at its place if white space or the end of the source follows. -/
theorem longest_of_belongs (h : Belongs rule piece kind lexeme rest) (hp : Parted rest) :
    Longest (piece ++ rest) piece kind lexeme rest := by
  refine ⟨rfl, ⟨rule, h⟩, ?_⟩
  intro rule' piece' kind' lexeme' rest' hsplit h'
  have hrule : rule' = rule := by
    obtain ⟨c, ps, rfl⟩ := exists_cons_of_belongs h
    obtain ⟨ps', -, -, hrule⟩ := exists_of_split h' hsplit
    rw [← hrule, h.ruleOf_eq]
  subst hrule
  rcases List.append_eq_append_iff.1 hsplit with ⟨more, rfl, hrest⟩ | ⟨more, rfl, -⟩
  · suffices more = [] by simp [this]
    by_contra hne
    obtain ⟨w, ws, rfl⟩ := List.exists_cons_of_ne_nil hne
    have hw := hp w (ws ++ rest') hrest
    have hmem : w ∈ piece ++ w :: ws := by simp
    by_cases ht : rule' = .text
    · subst ht
      exact hne (eq_nil_of_belongs_text h (by simp [hrest]) h')
    by_cases hc : rule' = .character
    · subst hc
      cases h
      cases h'
    · rw [isWhiteSpace_eq_false_of_mem h' ht hc w hmem] at hw
      cases hw
  · simp

end

end Token

end BisayaPlus
