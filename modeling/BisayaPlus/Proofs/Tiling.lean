import BisayaPlus.Proofs.LongestMatch
import BisayaPlus.Proofs.Offsets

/-!
The tokens of a text tile it. They stand one after another with nothing but white space and
comments between them, and each has its place and its lexeme from the piece of the text that it
covers. The tiling is first shown for the tokens of the scan and then kept when two words become
one keyword.
-/

namespace BisayaPlus.Token

open Lexeme Text
open String (utf8Len)

/-- White space and comments, in front of the rest. A comment lasts until the next line feed or
the end of the source. -/
inductive Gap : List Char → List Char → Prop
  | nil {rest : List Char} : Gap [] rest
  | white {c : Char} {cs rest : List Char} (hc : isWhiteSpace c = true) (h : Gap cs rest) :
      Gap (c :: cs) rest
  | comment {body cs rest : List Char} (hb : '\n' ∉ body)
      (hr : cs ++ rest = [] ∨ (cs ++ rest).head? = some '\n') (h : Gap cs rest) :
      Gap ('-' :: '-' :: (body ++ cs)) rest

/-- The kind and the lexeme that a piece of text gives to its token, in front of the rest. A
keyword of two words covers the words and what stands between them. -/
inductive Spells : List Char → Kind → String → List Char → Prop
  | lexeme {rule : Rule} {piece after : List Char} {kind : Kind} {lexeme : String}
      (h : Belongs rule piece kind lexeme after) : Spells piece kind lexeme after
  | twoWords {first gap second after : List Char} {w : String} {k : Keyword}
      (hf : String.ofList (upperCase first) = Keyword.kung.spelling)
      (hg : Gap gap (second ++ after)) (hs : String.ofList (upperCase second) = w)
      (hk : (w, k) ∈ secondWords) :
      Spells (first ++ (gap ++ second)) (.keyword k) k.spelling after
  | sourceEnd : Spells [] .sourceEnd "" []

def stopOf (ts : List Token) : Nat :=
  (ts.getLast?.map (·.span.stop)).getD 0

/-- The tokens tile the source. -/
structure Tiles (source : String) (tokens : List Token) : Prop where
  ordered : tokens.Pairwise fun t u => t.span.start < u.span.start ∧ t.span.stop ≤ u.span.start
  ends : ∃ ts, tokens = ts ++ [⟨.sourceEnd, "", ⟨source.utf8ByteSize, source.utf8ByteSize⟩,
      lineAt source.toList source.utf8ByteSize⟩] ∧
    ∀ t ∈ ts, t.kind ≠ .sourceEnd ∧ t.span.start < t.span.stop
  pieces : ∀ t ∈ tokens, t.line = lineAt source.toList t.span.start ∧
    ∃ piece after, Cuts source.toList t.span piece after ∧ Spells piece t.kind t.lexeme after
  gaps : ∀ before t after, tokens = before ++ t :: after →
    ∃ gap rest, Cuts source.toList ⟨stopOf before, t.span.start⟩ gap rest ∧ Gap gap rest

/-- The tokens lie one after another in the rest of a text, behind what stands before it. -/
inductive Laid : List Char → List Char → List Token → Prop
  | last {before gap : List Char} (hg : Gap gap []) :
      Laid before gap [sourceEnd (.after .start (before ++ gap))]
  | cons {before gap piece rest : List Char} {t : Token} {ts : List Token}
      (hg : Gap gap (piece ++ rest)) (hp : piece ≠ [])
      (hstart : t.span.start = utf8Len (before ++ gap))
      (hstop : t.span.stop = utf8Len (before ++ gap ++ piece))
      (hline : t.line = 1 + (before ++ gap).count '\n') (hs : Spells piece t.kind t.lexeme rest)
      (h : Laid (before ++ gap ++ piece) rest ts) : Laid before (gap ++ (piece ++ rest)) (t :: ts)

theorem Gap.append {gap gap' rest : List Char} (h : Gap gap (gap' ++ rest)) (h' : Gap gap' rest) :
    Gap (gap ++ gap') rest := by
  generalize hw : gap' ++ rest = ws at h
  induction h with
  | nil => exact h'
  | white hc h ih => exact .white hc (ih hw)
  | comment hb hr h ih =>
    subst hw
    rw [List.cons_append, List.cons_append, List.append_assoc]
    exact .comment hb (by simpa using hr) (ih rfl)

/-- What is passed over before some tokens belongs to the gap in front of them. -/
theorem Laid.of_gap {before gap cs : List Char} {ts : List Token} (hg : Gap gap cs)
    (h : Laid (before ++ gap) cs ts) : Laid before (gap ++ cs) ts := by
  cases h with
  | last hg' =>
    rw [List.append_assoc]
    exact .last (Gap.append (by simpa using hg) hg')
  | @cons _ gap' piece rest t ts hg' hp hstart hstop hline hs h =>
    rw [List.append_assoc before] at hstart hstop hline h
    rw [← List.append_assoc gap]
    exact .cons (hg.append hg') hp hstart hstop hline hs h

/-- The tokens of a scan lie one after another behind what stands before it. -/
theorem Scans.laid {before cs ds : List Char} {p q : Position} {ts : List Token}
    (h : Scans p cs ts q ds) (hp : p = .after .start before) (hds : ds = []) :
    Laid before cs (ts ++ [sourceEnd (.after .start (before ++ cs))]) := by
  induction h generalizing before with
  | @here p cs =>
    subst hds
    exact .last .nil
  | @white p q c rest ds ts hc h ih =>
    have hnext : p.next c = .after .start (before ++ [c]) := by
      rw [Position.after_append, ← hp]
      rfl
    have hlaid := ih hnext hds
    rw [List.append_assoc] at hlaid
    exact Laid.of_gap (.white hc .nil) hlaid
  | @comment p q body rest ds ts hb hr h ih =>
    have hnext : p.after ('-' :: '-' :: body) = .after .start (before ++ '-' :: '-' :: body) := by
      rw [Position.after_append, ← hp]
    have hlaid := ih hnext hds
    rw [List.append_assoc] at hlaid
    have hgap : Gap ('-' :: '-' :: (body ++ [])) rest := .comment hb hr .nil
    rw [List.append_nil] at hgap
    exact Laid.of_gap hgap hlaid
  | @token p q cs piece rest ds kind lexeme ts hs hl h ih =>
    obtain ⟨rule, hb⟩ := hl.belongs
    obtain ⟨c, ps, hpiece⟩ := exists_cons_of_belongs hb
    obtain rfl := hl.split
    have hnext : p.after piece = .after .start (before ++ piece) := by
      rw [Position.after_append, ← hp]
    have hlaid := ih hnext hds
    rw [List.append_assoc] at hlaid
    have hne : piece ≠ [] := hpiece ▸ List.cons_ne_nil c ps
    refine .cons .nil hne ?_ ?_ ?_ (.lexeme hb) ?_
    · rw [hp, Position.start_after, List.append_nil]
    · rw [hnext, Position.start_after, List.append_nil]
    · rw [hp, Position.start_after, List.append_nil]
    · rw [List.append_nil before]
      exact hlaid

theorem Spells.upperCase_of_kung {piece after : List Char} {lexeme : String}
    (h : Spells piece (.keyword .kung) lexeme after) :
    String.ofList (upperCase piece) = Keyword.kung.spelling := by
  cases h with
  | lexeme hb =>
    cases hb with
    | word hc hcs hw =>
      cases hw with
      | keyword hk hu => exact hu
  | twoWords hf hg hs hk => simp [secondWords] at hk

/-- A word and its lexeme have the same upper case. -/
theorem Spells.upperCase_lexeme {piece after : List Char} {kind : Kind} {lexeme : String}
    (h : Spells piece kind lexeme after) (hk : kind = .identifier ∨ kind = .boolean) :
    String.ofList (upperCase lexeme.toList) = String.ofList (upperCase piece) := by
  have hall : ∀ w ∈ [Value.trueWord, Value.falseWord],
      String.ofList (upperCase w.toList) = w := by decide +kernel
  cases h with
  | lexeme hb =>
    cases hb with
    | word hc hcs hw =>
      cases hw with
      | boolean hw hu => rw [hall _ hw, hu]
      | keyword => simp at hk
      | identifier => rw [String.toList_ofList]
    | _ => simp at hk
  | _ => simp at hk

theorem Spells.kind_ne_sourceEnd {piece after : List Char} {kind : Kind} {lexeme : String}
    (h : Spells piece kind lexeme after) (hp : piece ≠ []) : kind ≠ .sourceEnd := by
  cases h with
  | lexeme hb =>
    cases hb with
    | word hc hcs hw => cases hw <;> simp
    | _ => simp
  | twoWords hf hg hs hk => simp
  | sourceEnd => exact absurd rfl hp

theorem mem_secondWords_of_twoWords? {first second : Token} {k : Keyword}
    (h : twoWords? first second = some k) :
    first.kind = .keyword .kung ∧ (second.kind = .identifier ∨ second.kind = .boolean) ∧
      (String.ofList (upperCase second.lexeme.toList), k) ∈ secondWords := by
  unfold twoWords? at h
  split at h
  · rename_i hkinds
    obtain ⟨l₁, l₂, hsplit, -⟩ := List.lookup_eq_some_iff.1 h
    exact ⟨hkinds.1, hkinds.2, by simp [hsplit]⟩
  · cases h

/-- The piece of a keyword of two words reaches from the start of the first to the end of the
second. -/
theorem Laid.joinTwoWords {before cs : List Char} {ts : List Token} {last : Token}
    (h : Laid before cs (ts ++ [last])) : Laid before cs (joinTwoWords ts ++ [last]) := by
  fun_induction Token.joinTwoWords ts generalizing before cs with
  | case1 first second rest k hk ih =>
    obtain ⟨hkung, hword, hmem⟩ := mem_secondWords_of_twoWords? hk
    rw [List.cons_append, List.cons_append] at h
    generalize hus : rest ++ [last] = us at h
    cases h with
    | @cons _ gap piece _ _ _ hg hp hstart hstop hline hs h =>
      cases h with
      | last => simp at hus
      | @cons _ gap' piece' rest' _ _ hg' hp' hstart' hstop' hline' hs' h =>
        subst hus
        rw [hkung] at hs
        rw [hs'.upperCase_lexeme hword] at hmem
        have hspells : Spells (piece ++ (gap' ++ piece')) (.keyword k) k.spelling rest' :=
          .twoWords hs.upperCase_of_kung hg' rfl hmem
        have hbefore : before ++ gap ++ (piece ++ (gap' ++ piece')) =
            before ++ gap ++ piece ++ gap' ++ piece' := by simp
        have hle : utf8Len (before ++ gap) ≤ second.span.start ∧
            first.span.stop ≤ second.span.stop := by
          rw [hstart', hstop, hstop']
          simp only [String.utf8Len_append]
          omega
        have hgap : Gap gap (piece ++ (gap' ++ piece') ++ rest') := by simpa using hg
        have hcs : gap ++ (piece ++ (gap' ++ (piece' ++ rest'))) =
            gap ++ (piece ++ (gap' ++ piece') ++ rest') := by simp
        rw [hcs]
        refine .cons hgap (by simp [hp]) ?_ ?_ hline hspells ?_
        · rw [Span.join, hstart]
          exact Nat.min_eq_left hle.1
        · rw [hbefore, ← hstop']
          exact Nat.max_eq_right hle.2
        · rw [hbefore]
          exact ih h
  | case2 first second rest hk ih =>
    cases h with
    | cons hg hp hstart hstop hline hs h => exact .cons hg hp hstart hstop hline hs (ih h)
  | case3 ts hshort => exact h

namespace Laid

variable {before cs : List Char} {ts : List Token}

theorem exists_sourceEnd (h : Laid before cs ts) :
    ∃ us, ts = us ++ [sourceEnd (.after .start (before ++ cs))] ∧
      ∀ t ∈ us, t.kind ≠ .sourceEnd ∧ t.span.start < t.span.stop := by
  induction h with
  | last hg => exact ⟨[], rfl, by simp⟩
  | @cons before gap piece rest t ts hg hp hstart hstop hline hs h ih =>
    obtain ⟨us, rfl, hus⟩ := ih
    refine ⟨t :: us, by simp, List.forall_mem_cons.2 ⟨⟨?_, ?_⟩, hus⟩⟩
    · exact hs.kind_ne_sourceEnd hp
    · have hlen := Nat.pos_of_ne_zero (mt String.utf8Len_eq_zero.1 hp)
      rw [String.utf8Len_append] at hstop
      omega

theorem le_start (h : Laid before cs ts) : ∀ t ∈ ts, utf8Len before ≤ t.span.start := by
  induction h with
  | @last before gap hg =>
    have hstart : (sourceEnd (.after .start (before ++ gap))).span.start =
        utf8Len (before ++ gap) := by rw [Position.start_after, sourceEnd]
    rw [List.forall_mem_singleton, hstart, String.utf8Len_append]
    omega
  | cons hg hp hstart hstop hline hs h ih =>
    refine List.forall_mem_cons.2 ⟨?_, fun u hu => ?_⟩
    · rw [hstart, String.utf8Len_append]
      omega
    · have hle := ih u hu
      rw [String.utf8Len_append, String.utf8Len_append] at hle
      omega

/-- Tokens that lie in a text do not overlap. -/
theorem ordered (h : Laid before cs ts) :
    ts.Pairwise fun t u => t.span.start < u.span.start ∧ t.span.stop ≤ u.span.start := by
  induction h with
  | last hg => exact List.pairwise_singleton _ _
  | @cons before gap piece rest t ts hg hp hstart hstop hline hs h ih =>
    refine List.pairwise_cons.2 ⟨fun u hu => ?_, ih⟩
    have hle := h.le_start u hu
    have hsplit := String.utf8Len_append (before ++ gap) piece
    have hlen := Nat.pos_of_ne_zero (mt String.utf8Len_eq_zero.1 hp)
    omega

theorem pieces (h : Laid before cs ts) :
    ∀ t ∈ ts, t.line = lineAt (before ++ cs) t.span.start ∧
      ∃ piece after, Cuts (before ++ cs) t.span piece after ∧
        Spells piece t.kind t.lexeme after := by
  induction h with
  | @last before gap hg =>
    have hline := lineAt_append (before ++ gap) []
    rw [List.append_nil] at hline
    rw [List.forall_mem_singleton, sourceEnd, Position.start_after, hline]
    exact ⟨rfl, [], [], ⟨before ++ gap, by simp, rfl, by simp⟩, .sourceEnd⟩
  | @cons before gap piece rest t ts hg hp hstart hstop hline hs h ih =>
    have hsplit : before ++ (gap ++ (piece ++ rest)) = before ++ gap ++ (piece ++ rest) := by simp
    rw [hsplit]
    refine List.forall_mem_cons.2 ⟨?_, fun u hu => ?_⟩
    · rw [hstart, lineAt_append]
      exact ⟨hline, piece, rest, ⟨before ++ gap, rfl, hstart.symm, hstop.symm⟩, hs⟩
    · simpa using ih u hu

/-- Between two tokens that lie in a text there is nothing but white space and comments. -/
theorem gaps (h : Laid before cs ts) {us vs : List Token} {t : Token} (hts : ts = us ++ t :: vs) :
    ∃ gap rest, Cuts (before ++ cs)
      ⟨(us.getLast?.map (·.span.stop)).getD (utf8Len before), t.span.start⟩ gap rest ∧
      Gap gap rest := by
  induction h generalizing us with
  | @last before gap hg =>
    cases us with
    | nil =>
      obtain ⟨rfl, -⟩ := List.cons.inj hts
      refine ⟨gap, [], ⟨before, by simp, rfl, ?_⟩, hg⟩
      rw [sourceEnd, Position.start_after]
    | cons u us => simp at hts
  | @cons before gap piece rest t' ts hg hp hstart hstop hline hs h ih =>
    cases us with
    | nil =>
      obtain ⟨rfl, -⟩ := List.cons.inj hts
      exact ⟨gap, piece ++ rest, ⟨before, rfl, rfl, hstart.symm⟩, hg⟩
    | cons u us =>
      obtain ⟨rfl, rfl⟩ := List.cons.inj hts
      obtain ⟨gap', rest', hcuts, hgap⟩ := ih rfl
      have hsplit : before ++ (gap ++ (piece ++ rest)) = before ++ gap ++ piece ++ rest := by simp
      refine ⟨gap', rest', ?_, hgap⟩
      rw [hsplit]
      cases us with
      | nil =>
        rw [← hstop] at hcuts
        exact hcuts
      | cons v vs => exact hcuts

end Laid

/-- The tokens of a source text tile it. -/
theorem tiles_of_ofSource {source : String} {tokens : List Token}
    (h : ofSource source = .ok tokens) : Tiles source tokens := by
  unfold ofSource at h
  split at h
  · rename_i ts hts
    obtain ⟨q, hscans⟩ := scan_eq_ok_iff.1 hts
    have hlaid : Laid [] source.toList tokens :=
      Except.ok.inj h ▸ (hscans.laid rfl rfl).joinTwoWords
    exact {
      ordered := hlaid.ordered
      ends := by
        obtain ⟨us, hus, hall⟩ := hlaid.exists_sourceEnd
        have hline := lineAt_append source.toList []
        rw [List.append_nil] at hline
        rw [List.nil_append, Position.start_after, ← hline, String.utf8Len_toList] at hus
        exact ⟨us, hus, hall⟩
      pieces := hlaid.pieces
      gaps := fun before t after hts => hlaid.gaps hts }
  · cases h

/-- A text literal over two lines, a letter of two bytes, and a comment between the words of a
keyword. -/
theorem tiles_of_words_around_comment :
    ∃ tokens, ofSource "\"é\n\" x kung -- c\n wala\n" = .ok tokens ∧
      tokens.map (·.span) = [⟨0, 5⟩, ⟨6, 7⟩, ⟨8, 23⟩, ⟨24, 24⟩] ∧
      tokens.map (·.line) = [1, 2, 2, 4] ∧ Tiles "\"é\n\" x kung -- c\n wala\n" tokens := by
  have hok : ofSource "\"é\n\" x kung -- c\n wala\n" =
      .ok [⟨.text, "é\n", ⟨0, 5⟩, 1⟩, ⟨.identifier, "x", ⟨6, 7⟩, 2⟩,
        ⟨.keyword .kungWala, "KUNG WALA", ⟨8, 23⟩, 2⟩, ⟨.sourceEnd, "", ⟨24, 24⟩, 4⟩] := by
    decide +kernel
  exact ⟨_, hok, rfl, rfl, tiles_of_ofSource hok⟩

end BisayaPlus.Token
