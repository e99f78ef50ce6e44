import BisayaPlus.Proofs.Spelling
import BisayaPlus.Proofs.Tiling
import Mathlib.Data.List.Chain

/-!
Tokens written out are read back. The scan gives one token for each that was written, or two for
a keyword of two words, and these two become one again. No others become one, because KUNG never
stands in front of a second word in the list that was written. The tokens of a source are such a
list, so they may be written out anew in any layout.
-/

namespace BisayaPlus.Token

open Lexeme Text

inductive Filler : List Char → Prop
  | nil : Filler []
  | white {c : Char} {cs : List Char} (hc : isWhiteSpace c = true) (h : Filler cs) :
      Filler (c :: cs)
  | comment {body cs : List Char} (hb : '\n' ∉ body) (h : Filler cs) :
      Filler ('-' :: '-' :: (body ++ '\n' :: cs))

/-- What stands between two tokens or two words: white space first, then more of it or
comments. -/
def Layout (gap : List Char) : Prop :=
  ∃ c cs, gap = c :: cs ∧ isWhiteSpace c = true ∧ Filler cs

/-- A token written out, as one piece or as two words. -/
inductive Written : Kind → String → List Char → Prop
  | piece {kind : Kind} {lexeme : String} {cs : List Char} (h : Spelled kind lexeme cs) :
      Written kind lexeme cs
  | twoWords {first gap second : List Char} {w : String} {k : Keyword}
      (hf : String.ofList (upperCase first) = Keyword.kung.spelling) (hg : Layout gap)
      (hs : String.ofList (upperCase second) = w) (hk : (w, k) ∈ secondWords) :
      Written (.keyword k) k.spelling (first ++ (gap ++ second))

def face (t : Token) : Kind × String :=
  (t.kind, t.lexeme)

/-- KUNG and the second word of a keyword, which would be read as one. -/
def Merges (t u : Kind × String) : Prop :=
  t.1 = .keyword .kung ∧
    (u.1 = .identifier ∧ String.ofList (upperCase u.2.toList) = "WALA" ∨
      u = (.boolean, Value.falseWord))

/-- The tokens can be written out and read back. -/
structure Writable (ts : List (Kind × String)) : Prop where
  regular : ∀ t ∈ ts, Regular t.1 t.2
  apart : ts.IsChain fun t u => ¬Merges t u

/-- The text has the tokens in order, with some layout between neighbours. -/
inductive Renders : List (Kind × String) → List Char → Prop
  | nil : Renders [] []
  | single {t : Kind × String} {cs : List Char} (h : Written t.1 t.2 cs) : Renders [t] cs
  | cons {t u : Kind × String} {ts : List (Kind × String)} {cs gap rest : List Char}
      (h : Written t.1 t.2 cs) (hg : Layout gap) (hr : Renders (u :: ts) rest) :
      Renders (t :: u :: ts) (cs ++ (gap ++ rest))

inductive Unjoined : List (Kind × String) → List Token → Prop
  | nil : Unjoined [] []
  | single {f : Kind × String} {ts : List (Kind × String)} {u : Token} {us : List Token}
      (hf : u.face = f) (h : Unjoined ts us) : Unjoined (f :: ts) (u :: us)
  | pair {k : Keyword} {ts : List (Kind × String)} {first second : Token} {us : List Token}
      (hk : twoWords? first second = some k) (h : Unjoined ts us) :
      Unjoined ((.keyword k, k.spelling) :: ts) (first :: second :: us)

theorem Filler.scans {p q : Position} {gap rest ds : List Char} {us : List Token}
    (hf : Filler gap) (h : Scans (p.after gap) rest us q ds) : Scans p (gap ++ rest) us q ds := by
  induction hf generalizing p with
  | nil => exact h
  | white hc hf ih => exact .white hc (ih h)
  | @comment body cs hb hf ih =>
    have hnext : p.after ('-' :: '-' :: (body ++ '\n' :: cs)) =
        ((p.after ('-' :: '-' :: body)).next '\n').after cs := by
      rw [← List.cons_append, ← List.cons_append, Position.after_append]
      rfl
    rw [hnext] at h
    have hline := Scans.white (by decide) (ih h)
    simpa using Scans.comment hb (.inr rfl) hline

theorem layout_space : Layout [' '] :=
  ⟨' ', [], rfl, by decide, .nil⟩

/-- The scan passes over layout. -/
theorem Layout.scans {p q : Position} {gap rest ds : List Char} {us : List Token}
    (hg : Layout gap) (h : Scans (p.after gap) rest us q ds) : Scans p (gap ++ rest) us q ds := by
  obtain ⟨c, cs, rfl, hc, hf⟩ := hg
  exact (Filler.white hc hf).scans h

theorem Layout.parted {gap : List Char} (hg : Layout gap) (rest : List Char) :
    Parted (gap ++ rest) := by
  obtain ⟨c, cs, rfl, hc, -⟩ := hg
  intro d ds heq
  rw [← (List.cons.inj heq).1]
  exact hc

/-- The scan reads a token from its spelling, if nothing goes on with it. -/
theorem Spelled.scans {kind : Kind} {lexeme : String} {p q : Position} {cs rest ds : List Char}
    {us : List Token} (hs : Spelled kind lexeme cs) (hr : Regular kind lexeme) (hp : Parted rest)
    (h : Scans (p.after cs) rest us q ds) :
    ∃ u, u.face = (kind, lexeme) ∧ Scans p (cs ++ rest) (u :: us) q ds := by
  obtain ⟨rule, hb⟩ := hs.exists_belongs hr rest
  exact ⟨_, rfl, .token (not_skips_of_belongs hb hp) (longest_of_belongs hb hp) h⟩

/-- A second word is an identifier or a boolean when it is read alone. -/
theorem exists_spelled_of_secondWord {second : List Char} {w : String} {k : Keyword}
    (hs : String.ofList (upperCase second) = w) (hk : (w, k) ∈ secondWords) :
    ∃ kind lexeme, Spelled kind lexeme second ∧ Regular kind lexeme ∧
      (kind = .identifier ∨ kind = .boolean) ∧
      String.ofList (upperCase lexeme.toList) = w := by
  have hmem : w ∈ fixedWords :=
    List.mem_append_left _ (List.mem_append_right _ (List.mem_map_of_mem (f := Prod.fst) hk))
  obtain ⟨c, ds, rfl, hc, hds⟩ :=
    exists_startsWord_of_upperCase (isAlphabetic_of_mem_fixedWords hmem) hs
  rcases List.mem_cons.1 hk with heq | hk
  · obtain ⟨rfl, rfl⟩ := Prod.mk.inj heq
    refine ⟨.identifier, String.ofList (c :: ds), ?_, ?_, .inl rfl, ?_⟩
    · have hspelled : Spelled .identifier (String.ofList (c :: ds))
        (String.ofList (c :: ds)).toList := .identifier
      rwa [String.toList_ofList] at hspelled
    · exact .identifier hc hds (by rw [hs]; decide) (by rw [hs]; decide)
    · rw [String.toList_ofList, hs]
  · obtain ⟨rfl, rfl⟩ := Prod.mk.inj (List.mem_singleton.1 hk)
    exact ⟨.boolean, "DILI", .boolean hs, .boolean (by decide), .inr rfl, by decide +kernel⟩

theorem twoWords?_of_mem {first second : Token} {w : String} {k : Keyword}
    (hf : first.kind = .keyword .kung) (hword : second.kind = .identifier ∨ second.kind = .boolean)
    (hu : String.ofList (upperCase second.lexeme.toList) = w) (hk : (w, k) ∈ secondWords) :
    twoWords? first second = some k := by
  have hall : ∀ e ∈ secondWords, secondWords.lookup e.1 = some e.2 := by decide
  rw [twoWords?, if_pos ⟨hf, hword⟩, hu]
  exact hall _ hk

/-- The scan reads a written token, as one token or as two that are joined. -/
theorem Written.exists_scans {kind : Kind} {lexeme : String} {p q : Position}
    {cs rest ds : List Char} {ts : List (Kind × String)} {us : List Token}
    (h : Written kind lexeme cs) (hr : Regular kind lexeme) (hp : Parted rest)
    (hs : Scans (p.after cs) rest us q ds) (hu : Unjoined ts us) :
    ∃ vs, Scans p (cs ++ rest) vs q ds ∧ Unjoined ((kind, lexeme) :: ts) vs := by
  cases h with
  | piece h =>
    obtain ⟨u, hface, hscans⟩ := h.scans hr hp hs
    exact ⟨_, hscans, .single hface hu⟩
  | @twoWords first gap second w k hf hg hw hk =>
    obtain ⟨kind, lexeme, hsecond, hregular, hword, hupper⟩ := exists_spelled_of_secondWord hw hk
    rw [Position.after_append, Position.after_append] at hs
    obtain ⟨v, hv, hscans⟩ := hsecond.scans hregular hp hs
    have hkung : Spelled (.keyword .kung) Keyword.kung.spelling first :=
      .keyword (by decide) hf
    obtain ⟨u, hu', hscans⟩ := hkung.scans .keyword (hg.parted _) (hg.scans hscans)
    obtain ⟨rfl, rfl⟩ := Prod.mk.inj hv
    refine ⟨u :: v :: us, by simpa using hscans, .pair ?_ hu⟩
    exact twoWords?_of_mem (Prod.mk.inj hu').1 hword hupper hk

/-- The scan reads rendered tokens from their text, before words are joined. -/
theorem Renders.exists_scans {ts : List (Kind × String)} {cs : List Char} (h : Renders ts cs)
    (hr : ∀ t ∈ ts, Regular t.1 t.2) (p : Position) :
    ∃ us q, Scans p cs us q [] ∧ Unjoined ts us := by
  induction h generalizing p with
  | nil => exact ⟨[], p, .here, .nil⟩
  | @single t cs h =>
    have hregular := hr t List.mem_cons_self
    have hparted : Parted [] := fun c cs heq => by cases heq
    obtain ⟨us, hscans, hu⟩ := h.exists_scans hregular hparted (.here (p := p.after cs)) .nil
    rw [List.append_nil] at hscans
    exact ⟨us, _, hscans, hu⟩
  | @cons t u ts cs gap rest h hg hrest ih =>
    obtain ⟨hregular, hr⟩ := List.forall_mem_cons.1 hr
    obtain ⟨us, q, hscans, hu⟩ := ih hr ((p.after cs).after gap)
    obtain ⟨vs, hscans, hu⟩ := h.exists_scans hregular (hg.parted rest) (hg.scans hscans) hu
    exact ⟨vs, q, hscans, hu⟩

theorem Regular.isSecondWord {kind : Kind} {lexeme : String} {k : Keyword}
    (h : Regular kind lexeme) (hword : kind = .identifier ∨ kind = .boolean)
    (hk : (String.ofList (upperCase lexeme.toList), k) ∈ secondWords) :
    kind = .identifier ∧ String.ofList (upperCase lexeme.toList) = "WALA" ∨
      (kind, lexeme) = (.boolean, Value.falseWord) := by
  cases h with
  | boolean hw =>
    have htrue : ∀ e ∈ secondWords,
        e.1 ≠ String.ofList (upperCase Value.trueWord.toList) := by decide +kernel
    rcases List.mem_cons.1 hw with rfl | hw
    · exact absurd rfl (htrue _ hk)
    · rw [List.mem_singleton.1 hw]
      exact .inr rfl
  | @identifier c cs hc hcs hb =>
    rw [String.toList_ofList] at hk ⊢
    rcases List.mem_cons.1 hk with heq | hk
    · exact .inl ⟨rfl, (Prod.mk.inj heq).1⟩
    · rw [(Prod.mk.inj (List.mem_singleton.1 hk)).1] at hb
      exact absurd (by decide) hb
  | _ => simp at hword

/-- Two tokens of the scan become one where KUNG stands in front of a second word. -/
theorem exists_twoWords?_iff {t u : Token} (hu : Regular u.kind u.lexeme) :
    (∃ k, twoWords? t u = some k) ↔ Merges t.face u.face := by
  constructor
  · rintro ⟨k, hk⟩
    obtain ⟨hkung, hword, hmem⟩ := mem_secondWords_of_twoWords? hk
    exact ⟨hkung, hu.isSecondWord hword hmem⟩
  · rintro ⟨hkung, ⟨hi, hwala⟩ | hdili⟩
    · exact ⟨.kungWala, twoWords?_of_mem hkung (.inl hi) hwala (by decide)⟩
    · obtain ⟨hb, hlexeme⟩ := Prod.mk.inj hdili
      have hupper : String.ofList (upperCase u.lexeme.toList) = "DILI" := by
        rw [hlexeme]
        decide +kernel
      exact ⟨.kungDili, twoWords?_of_mem hkung (.inr hb) hupper (by decide)⟩

/-- Neighbours are joined only if they are KUNG and a second word. -/
theorem twoWords?_eq_none_iff {t u : Token} (hu : Regular u.kind u.lexeme) :
    twoWords? t u = none ↔ ¬Merges t.face u.face := by
  rw [← exists_twoWords?_iff hu, Option.eq_none_iff_forall_ne_some, not_exists]

theorem joinTwoWords_cons {t : Token} {us : List Token}
    (h : ∀ u vs, us = u :: vs → twoWords? t u = none) :
    joinTwoWords (t :: us) = t :: joinTwoWords us := by
  cases us with
  | nil => rfl
  | cons u vs => rw [joinTwoWords, h u vs rfl]

/-- Joining two words undoes the split of the keywords that are two words, and does no more. -/
theorem Unjoined.map_face {ts : List (Kind × String)} {us : List Token} (h : Unjoined ts us)
    (hw : Writable ts) : (joinTwoWords us).map face = ts := by
  induction h with
  | nil => rfl
  | @single f ts u us hf h ih =>
    obtain ⟨hr, hapart⟩ := hw
    have htail : Writable ts := ⟨(List.forall_mem_cons.1 hr).2, hapart.tail⟩
    have hnone : ∀ v vs, us = v :: vs → twoWords? u v = none := by
      rintro v vs rfl
      -- What follows is the next token that was written, or the KUNG of two words.
      cases h with
      | single hg h =>
        subst hf hg
        exact (twoWords?_eq_none_iff (htail.regular _ List.mem_cons_self)).2
          (List.isChain_cons_cons.1 hapart).1
      | pair hk h =>
        have hkung := (mem_secondWords_of_twoWords? hk).1
        simp [twoWords?, hkung]
    rw [joinTwoWords_cons hnone, List.map_cons, hf, ih htail]
  | @pair k ts first second us hk h ih =>
    have htail : Writable ts := ⟨(List.forall_mem_cons.1 hw.regular).2, hw.apart.tail⟩
    rw [joinTwoWords, hk, List.map_cons, ih htail]
    rfl

/-- Tokens that can be written out are read back from their text. -/
theorem ofSource_of_renders {ts : List (Kind × String)} {source : String} (hw : Writable ts)
    (h : Renders ts source.toList) :
    ∃ us, ofSource source = .ok us ∧ us.map face = ts ++ [(.sourceEnd, "")] := by
  obtain ⟨us, q, hscans, hu⟩ := h.exists_scans hw.regular .start
  refine ⟨joinTwoWords us ++ [sourceEnd (Position.start.after source.toList)], ?_, ?_⟩
  · rw [ofSource, scan_eq_ok_iff.2 ⟨q, hscans⟩]
  · rw [List.map_append, hu.map_face hw]
    rfl

/-- The lexeme of a token is one that its kind can have. -/
theorem regular_of_belongs {rule : Rule} {piece rest : List Char} {kind : Kind} {lexeme : String}
    (h : Belongs rule piece kind lexeme rest) : Regular kind lexeme := by
  cases h with
  | whole hne hd => exact .whole hne hd
  | decimal hds hd hps hp => exact .decimal hds hd hps hp
  | text h | openText h => exact .text h
  | character => exact .character
  | word hc hcs has =>
    cases has with
    | boolean hw => exact .boolean hw
    | keyword => exact .keyword
    | identifier hb hk => exact .identifier hc hcs hb hk
  | symbol => exact .symbol

theorem Scans.exists_belongs {p q : Position} {cs ds : List Char} {ts : List Token}
    (h : Scans p cs ts q ds) :
    ∀ t ∈ ts, ∃ rule piece rest, Belongs rule piece t.kind t.lexeme rest := by
  induction h with
  | here => simp
  | white hc h ih => exact ih
  | comment hb hr h ih => exact ih
  | token hs hl h ih =>
    obtain ⟨rule, hb⟩ := hl.belongs
    exact List.forall_mem_cons.2 ⟨⟨rule, _, _, hb⟩, ih⟩

theorem Scans.regular {p q : Position} {cs ds : List Char} {ts : List Token}
    (h : Scans p cs ts q ds) : ∀ t ∈ ts, Regular t.kind t.lexeme := by
  intro t ht
  obtain ⟨rule, piece, rest, hb⟩ := h.exists_belongs t ht
  exact regular_of_belongs hb

theorem regular_joinTwoWords {ts : List Token} (h : ∀ t ∈ ts, Regular t.kind t.lexeme) :
    ∀ t ∈ joinTwoWords ts, Regular t.kind t.lexeme := by
  fun_induction joinTwoWords ts with
  | case1 first second rest k hk ih =>
    have hrest := (List.forall_mem_cons.1 (List.forall_mem_cons.1 h).2).2
    exact List.forall_mem_cons.2 ⟨.keyword, ih hrest⟩
  | case2 first second rest hk ih =>
    obtain ⟨hfirst, hrest⟩ := List.forall_mem_cons.1 h
    exact List.forall_mem_cons.2 ⟨hfirst, ih hrest⟩
  | case3 => exact h

/-- The first token after the join is the first one before it or a keyword of two words. -/
theorem head?_joinTwoWords {ts : List Token} {t : Token} (h : t ∈ (joinTwoWords ts).head?) :
    t ∈ ts.head? ∨ ∃ k, t.kind = .keyword k := by
  fun_cases joinTwoWords ts with
  | case1 first second rest k hk =>
    rw [joinTwoWords, hk] at h
    exact .inr ⟨k, by rw [← Option.some.inj h]⟩
  | case2 first second rest hk =>
    rw [joinTwoWords, hk] at h
    exact .inl h
  | case3 _ hshort =>
    rw [joinTwoWords] at h
    · exact .inl h
    · exact hshort

/-- No two neighbours are left to join. -/
theorem isChain_twoWords?_joinTwoWords (ts : List Token) :
    (joinTwoWords ts).IsChain fun t u => twoWords? t u = none := by
  fun_induction joinTwoWords ts with
  | case1 first second rest k hk ih =>
    refine ih.cons fun u hu => if_neg fun hkung => ?_
    obtain ⟨-, -, hmem⟩ := mem_secondWords_of_twoWords? hk
    obtain rfl : k = .kung := Kind.keyword.inj hkung.1
    simp [secondWords] at hmem
  | case2 first second rest hk ih =>
    refine ih.cons fun u hu => ?_
    rcases head?_joinTwoWords hu with hsecond | ⟨k, hkind⟩
    · obtain rfl := Option.some.inj hsecond
      exact hk
    · exact if_neg fun hword => by simp [hkind] at hword
  | case3 ts hshort =>
    rcases ts with _ | ⟨t, _ | ⟨u, us⟩⟩
    · exact .nil
    · exact .singleton t
    · exact (hshort t u us rfl).elim

/-- No KUNG is left in front of a second word. -/
theorem isChain_joinTwoWords {ts : List Token} (h : ∀ t ∈ ts, Regular t.kind t.lexeme) :
    (joinTwoWords ts).IsChain fun t u => ¬Merges t.face u.face :=
  (isChain_twoWords?_joinTwoWords ts).imp_of_mem_imp fun _ u _ hu hnone =>
    (twoWords?_eq_none_iff (regular_joinTwoWords h u hu)).1 hnone

/-- What is left of joining can be written out, since no neighbours are joined again. -/
theorem writable_joinTwoWords {ts : List Token} (h : ∀ t ∈ ts, Regular t.kind t.lexeme) :
    Writable ((joinTwoWords ts).map face) where
  regular := List.forall_mem_map.2 (regular_joinTwoWords h)
  apart := (List.isChain_map face).2 (isChain_joinTwoWords h)

theorem Regular.exists_written {kind : Kind} {lexeme : String} (h : Regular kind lexeme) :
    ∃ cs, Written kind lexeme cs := by
  cases h with
  | whole | decimal => exact ⟨_, .piece .number⟩
  | text => exact ⟨_, .piece .text⟩
  | character => exact ⟨_, .piece .character⟩
  | symbol => exact ⟨_, .piece .symbol⟩
  | identifier => exact ⟨_, .piece .identifier⟩
  | boolean hw =>
    have hall : ∀ w ∈ [Value.trueWord, Value.falseWord],
        String.ofList (upperCase w.toList) = w := by decide +kernel
    exact ⟨_, .piece (.boolean (hall _ hw))⟩
  | @keyword k =>
    have hall : ∀ k ∈ Keyword.single,
        String.ofList (upperCase k.spelling.toList) = k.spelling := by decide +kernel
    have htwo : ∀ e ∈ secondWords, String.ofList (upperCase e.1.toList) = e.1 := by decide +kernel
    by_cases hk : k ∈ Keyword.single
    · exact ⟨_, .piece (.keyword hk (hall k hk))⟩
    · obtain ⟨e, he, rfl⟩ : ∃ e ∈ secondWords, e.2 = k := by
        revert hk
        cases k <;> decide
      exact ⟨_, .twoWords (hall .kung (by decide)) layout_space (htwo e he) he⟩

/-- Tokens with lexemes of their kinds have a text. -/
theorem exists_renders {ts : List (Kind × String)} (h : ∀ t ∈ ts, Regular t.1 t.2) :
    ∃ cs, Renders ts cs := by
  induction ts with
  | nil => exact ⟨[], .nil⟩
  | cons t ts ih =>
    obtain ⟨ht, hts⟩ := List.forall_mem_cons.1 h
    obtain ⟨cs, hwritten⟩ := ht.exists_written
    obtain ⟨rest, hrest⟩ := ih hts
    cases ts with
    | nil => exact ⟨cs, .single hwritten⟩
    | cons u us => exact ⟨_, .cons hwritten layout_space hrest⟩

/-- The tokens of a source text can be written out. -/
theorem writable_of_ofSource {source : String} {us : List Token} (h : ofSource source = .ok us) :
    ∃ ts, us.map face = ts ++ [(.sourceEnd, "")] ∧ Writable ts := by
  unfold ofSource at h
  split at h
  · rename_i vs hvs
    obtain ⟨q, hscans⟩ := scan_eq_ok_iff.1 hvs
    refine ⟨_, ?_, writable_joinTwoWords hscans.regular⟩
    rw [← Except.ok.inj h, List.map_append]
    rfl
  · cases h

/-- Tokens that are written out in any layout are read back, with the end of the source behind
them. The tokens of any source can be written out so, and are then read back as they were. -/
theorem ofSource_renders :
    (∀ ts (source : String), Writable ts → Renders ts source.toList →
      ∃ us, ofSource source = .ok us ∧ us.map face = ts ++ [(.sourceEnd, "")]) ∧
    ∀ source us, ofSource source = .ok us →
      ∃ ts, us.map face = ts ++ [(.sourceEnd, "")] ∧ Writable ts ∧
        (∃ source' : String, Renders ts source'.toList) ∧
        ∀ source' : String, Renders ts source'.toList →
          ∃ us', ofSource source' = .ok us' ∧ us'.map face = us.map face := by
  refine ⟨fun ts source => ofSource_of_renders, fun source us h => ?_⟩
  obtain ⟨ts, hts, hw⟩ := writable_of_ofSource h
  refine ⟨ts, hts, hw, ?_, fun source' hrenders => ?_⟩
  · obtain ⟨cs, hcs⟩ := exists_renders hw.regular
    exact ⟨String.ofList cs, by rwa [String.toList_ofList]⟩
  · rw [hts]
    exact ofSource_of_renders hw hrenders

/-- The words of a keyword, apart by a comment or by a space, and a text that looks like a
comment. -/
theorem ofSource_renders_words_apart :
    Writable [(.keyword .kungDili, "KUNG DILI"), (.text, "--")] ∧
      Renders [(.keyword .kungDili, "KUNG DILI"), (.text, "--")]
        "kung\n--c\n dılı \"--\"".toList ∧
      ∃ us, ofSource "kung\n--c\n dılı \"--\"" = .ok us ∧
        us.map face = [(.keyword .kungDili, "KUNG DILI"), (.text, "--"), (.sourceEnd, "")] ∧
        ∃ us', ofSource "KUNG DILI \"--\"" = .ok us' ∧ us'.map face = us.map face := by
  have htext : Regular .text "--" := @Regular.text ['-', '-'] (by decide)
  have hwritable : Writable [(.keyword .kungDili, "KUNG DILI"), (.text, "--")] :=
    { regular := List.forall_mem_cons.2 ⟨.keyword, List.forall_mem_singleton.2 htext⟩
      apart := by simp [Merges] }
  have hcomment : Layout "\n--c\n ".toList :=
    ⟨'\n', _, rfl, by decide, @Filler.comment ['c'] [' '] (by decide) (.white (by decide) .nil)⟩
  have hrenders : ∀ first gap second, String.ofList (upperCase first) = "KUNG" → Layout gap →
      String.ofList (upperCase second) = "DILI" →
      Renders [(.keyword .kungDili, "KUNG DILI"), (.text, "--")]
        (first ++ (gap ++ second) ++ ([' '] ++ '"' :: ("--".toList ++ ['"']))) := by
    intro first gap second hf hg hs
    exact .cons (.twoWords hf hg hs (by decide)) layout_space (.single (.piece .text))
  have hspread : Renders [(.keyword .kungDili, "KUNG DILI"), (.text, "--")]
      "kung\n--c\n dılı \"--\"".toList :=
    hrenders "kung".toList "\n--c\n ".toList "dılı".toList (by decide +kernel) hcomment
      (by decide +kernel)
  have hplain := hrenders "KUNG".toList [' '] "DILI".toList (by decide +kernel) layout_space
    (by decide +kernel)
  obtain ⟨us, hus, hface⟩ := ofSource_renders.1 _ _ hwritable hspread
  obtain ⟨ts, hts, -, -, hall⟩ := ofSource_renders.2 _ us hus
  obtain rfl : ts = [(.keyword .kungDili, "KUNG DILI"), (.text, "--")] :=
    List.append_cancel_right (hts.symm.trans hface)
  exact ⟨hwritable, hspread, us, hus, hface, hall "KUNG DILI \"--\"" hplain⟩

end BisayaPlus.Token
