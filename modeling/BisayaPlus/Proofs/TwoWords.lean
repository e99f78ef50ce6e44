import BisayaPlus.Proofs.Rendering

/-!
The join of two words is complete and loses nothing. Each token of its result comes from itself or
from a pair of neighbours, and these sources are the given tokens in their order. No pair is left
in the result, so a second join finds nothing to do.
-/

namespace BisayaPlus.Token

open Lexeme Text

def Scanned (t : Token) : Prop :=
  ∃ p cs ts, scan p cs = .ok ts ∧ t ∈ ts

/-- KUNG and a word that make up a keyword of two words, in any spelling of the second. -/
structure Pairs (first second : Token) (k : Keyword) : Prop where
  kung : first.kind = .keyword .kung
  word : second.kind = .identifier ∨ second.kind = .boolean
  spelling : String.ofList (upperCase second.lexeme.toList) = "WALA" ∧ k = .kungWala ∨
    String.ofList (upperCase second.lexeme.toList) = "DILI" ∧ k = .kungDili

/-- The tokens that a token of the result comes from. -/
inductive ComesFrom : Token → List Token → Prop
  | itself {t : Token} (hwala : t.kind ≠ .keyword .kungWala) (hdili : t.kind ≠ .keyword .kungDili) :
      ComesFrom t [t]
  | pair {first second : Token} {k : Keyword} (h : Pairs first second k) :
      ComesFrom ⟨.keyword k, k.spelling, first.span.join second.span, first.line⟩ [first, second]

theorem mem_secondWords_iff {w : String} {k : Keyword} :
    (w, k) ∈ secondWords ↔ w = "WALA" ∧ k = .kungWala ∨ w = "DILI" ∧ k = .kungDili := by
  simp [secondWords]

/-- Two tokens are joined exactly if they make up a keyword. -/
theorem twoWords?_eq_some_iff {first second : Token} {k : Keyword} :
    twoWords? first second = some k ↔ Pairs first second k := by
  constructor
  · intro h
    obtain ⟨hkung, hword, hmem⟩ := mem_secondWords_of_twoWords? h
    exact ⟨hkung, hword, mem_secondWords_iff.1 hmem⟩
  · intro h
    exact twoWords?_of_mem h.kung h.word rfl (mem_secondWords_iff.2 h.spelling)

theorem twoWords?_eq_none_iff_forall {first second : Token} :
    twoWords? first second = none ↔ ∀ k, ¬Pairs first second k := by
  rw [Option.eq_none_iff_forall_ne_some]
  exact forall_congr' fun k => not_congr twoWords?_eq_some_iff

/-- No pair is left to join. -/
theorem isChain_not_pairs (ts : List Token) :
    (joinTwoWords ts).IsChain fun t u => ∀ k, ¬Pairs t u k :=
  (isChain_twoWords?_joinTwoWords ts).imp fun _ _ => twoWords?_eq_none_iff_forall.1

/-- Joining changes nothing where no two neighbours make up a keyword. -/
theorem joinTwoWords_eq_self {ts : List Token}
    (h : ts.IsChain fun t u => ∀ k, ¬Pairs t u k) : joinTwoWords ts = ts := by
  induction ts with
  | nil => rfl
  | cons t us ih =>
    rw [joinTwoWords_cons, ih h.tail]
    rintro u vs rfl
    exact twoWords?_eq_none_iff_forall.2 (List.isChain_cons_cons.1 h).1

/-- The scan makes keywords of single words only. -/
theorem Scanned.mem_single {t : Token} {k : Keyword} (h : Scanned t) (hk : t.kind = .keyword k) :
    k ∈ Keyword.single := by
  obtain ⟨p, cs, ts, hscan, hmem⟩ := h
  obtain ⟨q, hscans⟩ := scan_eq_ok_iff.1 hscan
  obtain ⟨rule, piece, rest, hb⟩ := hscans.exists_belongs t hmem
  rw [hk] at hb
  generalize t.lexeme = lexeme at hb
  cases hb with
  | word hc hcs has =>
    cases has with
    | keyword hsingle => exact hsingle

theorem Scanned.comesFrom {t : Token} (h : Scanned t) : ComesFrom t [t] := by
  refine .itself (fun hk => ?_) (fun hk => ?_)
  · exact absurd (h.mem_single hk) (by decide)
  · exact absurd (h.mem_single hk) (by decide)

/-- Each token of the result comes from some tokens, and all tokens are among these, in order. -/
theorem exists_sources {ts : List Token} (h : ∀ t ∈ ts, Scanned t) :
    ∃ sources, List.Forall₂ ComesFrom (joinTwoWords ts) sources ∧ sources.flatten = ts := by
  fun_induction joinTwoWords ts with
  | case1 first second rest k hk ih =>
    obtain ⟨sources, hsources, hflatten⟩ := ih fun t ht => h t (by simp [ht])
    have hpair := ComesFrom.pair (twoWords?_eq_some_iff.1 hk)
    refine ⟨[first, second] :: sources, .cons hpair hsources, ?_⟩
    rw [List.flatten_cons, hflatten]
    rfl
  | case2 first second rest hk ih =>
    obtain ⟨hfirst, hrest⟩ := List.forall_mem_cons.1 h
    obtain ⟨sources, hsources, hflatten⟩ := ih hrest
    refine ⟨[first] :: sources, .cons hfirst.comesFrom hsources, ?_⟩
    rw [List.flatten_cons, hflatten, List.singleton_append]
  | case3 ts hshort =>
    refine ⟨ts.map fun t => [t], ?_, ?_⟩
    · exact List.forall₂_map_right_iff.2 (List.forall₂_same.2 fun t ht => (h t ht).comesFrom)
    · rw [← List.flatMap_def, List.flatMap_singleton']

/-- For tokens of the scan, the join leaves no KUNG in front of a second word. Each keyword of two
words that it makes stands for the pair that it comes from, all other tokens are passed on, and
with the pairs in their places the given tokens are there in their order. A second join changes
nothing. -/
theorem joinTwoWords_lossless {ts : List Token} (h : ∀ t ∈ ts, Scanned t) :
    ((joinTwoWords ts).IsChain fun t u => ∀ k, ¬Pairs t u k) ∧
      (∃ sources, List.Forall₂ ComesFrom (joinTwoWords ts) sources ∧ sources.flatten = ts) ∧
      joinTwoWords (joinTwoWords ts) = joinTwoWords ts :=
  ⟨isChain_not_pairs ts, exists_sources h, joinTwoWords_eq_self (isChain_not_pairs ts)⟩

/-- A KUNG before another one, a second word behind a pair, and a KUNG at the end. -/
def kungs : List Token :=
  [⟨.keyword .kung, "KUNG", ⟨0, 4⟩, 1⟩, ⟨.keyword .kung, "KUNG", ⟨5, 9⟩, 1⟩,
    ⟨.boolean, "DILI", ⟨10, 14⟩, 2⟩, ⟨.boolean, "DILI", ⟨15, 19⟩, 2⟩,
    ⟨.identifier, "wala", ⟨20, 24⟩, 2⟩, ⟨.keyword .kung, "KUNG", ⟨25, 29⟩, 2⟩]

theorem joinTwoWords_lossless_kungs :
    (∀ t ∈ kungs, Scanned t) ∧
      joinTwoWords kungs = [⟨.keyword .kung, "KUNG", ⟨0, 4⟩, 1⟩,
        ⟨.keyword .kungDili, "KUNG DILI", ⟨5, 14⟩, 1⟩, ⟨.boolean, "DILI", ⟨15, 19⟩, 2⟩,
        ⟨.identifier, "wala", ⟨20, 24⟩, 2⟩, ⟨.keyword .kung, "KUNG", ⟨25, 29⟩, 2⟩] ∧
      ((joinTwoWords kungs).IsChain fun t u => ∀ k, ¬Pairs t u k) ∧
      (∃ sources, List.Forall₂ ComesFrom (joinTwoWords kungs) sources ∧
        sources.flatten = kungs) ∧
      joinTwoWords (joinTwoWords kungs) = joinTwoWords kungs := by
  have hscan : scan .start "KUNG kung\ndili DILI wala KUNG".toList = .ok kungs := by
    decide +kernel
  have hscanned : ∀ t ∈ kungs, Scanned t := fun t ht => ⟨.start, _, kungs, hscan, ht⟩
  exact ⟨hscanned, by decide +kernel, joinTwoWords_lossless hscanned⟩

end BisayaPlus.Token
