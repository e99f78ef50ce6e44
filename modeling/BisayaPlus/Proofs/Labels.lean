import BisayaPlus.Proofs.Refusal

/-!
Where a refused source text is marked. The line of a diagnostic is one of the text, and the part of
its span that is within the text begins and ends between two characters. There is one exception:
what is missing at the end of the source is placed on the one byte behind the last token, and that
byte may be the first of a wider white space.
-/

namespace BisayaPlus

open Text Token
open String (utf8Len)

def Span.clamp (size : Nat) (s : Span) : Span :=
  ⟨min s.start (min s.stop size), min s.stop size⟩

/-- The span is the first byte of a wider white space. -/
def Span.Splits (source : List Char) (s : Span) : Prop :=
  ∃ before c after, source = before ++ c :: after ∧ isWhiteSpace c = true ∧ 1 < c.utf8Size ∧
    s = ⟨utf8Len before, utf8Len before + 1⟩

/-- The mark has a line of the source and a span in order, of which the part within the source
begins between two characters. -/
structure Mark.Labels (source : String) (m : Mark) : Prop where
  line_pos : 1 ≤ m.line
  line_le : m.line ≤ 1 + source.toList.count '\n'
  ordered : m.span.start ≤ m.span.stop
  start : IsBoundary source.toList (m.span.clamp source.utf8ByteSize).start

namespace Text

variable {source : List Char} {m n : Nat}

theorem isBoundary_utf8Len (source : List Char) : IsBoundary source (utf8Len source) :=
  ⟨source, [], (List.append_nil source).symm, rfl⟩

theorem lineAt_le (h : IsBoundary source n) : lineAt source n ≤ 1 + source.count '\n' := by
  have hline := lineAt_append source []
  rw [List.append_nil] at hline
  rw [← hline]
  exact lineAt_mono source h.le

theorem IsBoundary.min (hm : IsBoundary source m) (hn : IsBoundary source n) :
    IsBoundary source (min m n) := by
  obtain h | h := Nat.le_total m n
  · rwa [Nat.min_eq_left h]
  · rwa [Nat.min_eq_right h]

theorem IsBoundary.max (hm : IsBoundary source m) (hn : IsBoundary source n) :
    IsBoundary source (max m n) := by
  obtain h | h := Nat.le_total m n
  · rwa [Nat.max_eq_right h]
  · rwa [Nat.max_eq_left h]

end Text

namespace Span

variable {source : String} {s : Span}

theorem isBoundary_clamp_start (hs : IsBoundary source.toList s.start) (h : s.start ≤ s.stop) :
    IsBoundary source.toList (s.clamp source.utf8ByteSize).start := by
  have hle := hs.le
  rw [String.utf8Len_toList] at hle
  rwa [clamp, Nat.min_eq_left (Nat.le_min.2 ⟨h, hle⟩)]

theorem isBoundary_clamp_stop (hs : IsBoundary source.toList s.stop) :
    IsBoundary source.toList (s.clamp source.utf8ByteSize).stop := by
  have hend := isBoundary_utf8Len source.toList
  rw [String.utf8Len_toList] at hend
  exact hs.min hend

/-- A byte further than the first of a character is not between two characters. -/
theorem not_isBoundary_of_splits (h : s.Splits source.toList) :
    ¬IsBoundary source.toList (s.clamp source.utf8ByteSize).stop := by
  obtain ⟨before, c, after, hsplit, -, hwide, rfl⟩ := h
  have hsize : utf8Len before + c.utf8Size ≤ source.utf8ByteSize := by
    rw [← String.utf8Len_toList, hsplit, String.utf8Len_append, String.utf8Len_cons]
    omega
  have hstop : (Span.clamp source.utf8ByteSize ⟨utf8Len before, utf8Len before + 1⟩).stop =
      utf8Len before + 1 := Nat.min_eq_left (by dsimp only; omega)
  rw [hstop]
  rintro ⟨front, back, hcut, hlen⟩
  have hc : utf8Len (before ++ [c]) = utf8Len before + c.utf8Size := by
    rw [String.utf8Len_append, String.utf8Len_cons, String.utf8Len_nil, Nat.zero_add]
  have hbefore : before ++ [c] <+: source.toList := ⟨after, by simp [hsplit]⟩
  -- the front of the cut is too long to lie in front of `c` and too short to have it
  obtain hfront | hfront := List.prefix_or_prefix_of_prefix ⟨back, hcut.symm⟩ hbefore
  · obtain rfl | ⟨more, rfl⟩ := List.prefix_concat_iff.1 hfront
    · omega
    · rw [String.utf8Len_append] at hlen
      omega
  · obtain ⟨more, rfl⟩ := hfront
    rw [String.utf8Len_append] at hlen
    omega

end Span

namespace Mark.Labels

variable {source : String} {m : Mark}

theorem of_isBoundary {n : Nat} (hline : m.line = lineAt source.toList n)
    (hn : IsBoundary source.toList n) (hs : IsBoundary source.toList m.span.start)
    (h : m.span.start ≤ m.span.stop) : m.Labels source where
  line_pos := by
    rw [hline, lineAt]
    omega
  line_le := hline.trans_le (lineAt_le hn)
  ordered := h
  start := Span.isBoundary_clamp_start hs h

end Mark.Labels

namespace Token.Tiles

variable {source : String} {tokens : List Token} {t u : Token}

/-- The tokens of a source begin and end between two characters. -/
theorem isBoundary (h : Tiles source tokens) (ht : t ∈ tokens) :
    IsBoundary source.toList t.span.start ∧ IsBoundary source.toList t.span.stop := by
  obtain ⟨-, piece, after, hcuts, -⟩ := h.pieces t ht
  exact hcuts.isBoundary

theorem start_le (h : Tiles source tokens) (ht : t ∈ tokens) : t.span.start ≤ t.span.stop := by
  obtain ⟨-, piece, after, ⟨before, -, hstart, hstop⟩, -⟩ := h.pieces t ht
  rw [← hstart, ← hstop, String.utf8Len_append]
  omega

/-- The mark of a token is a label in the source. -/
theorem labels (h : Tiles source tokens) (ht : t ∈ tokens) : t.mark.Labels source :=
  .of_isBoundary (h.pieces t ht).1 (h.isBoundary ht).1 (h.isBoundary ht).1 (h.start_le ht)

/-- A place from one token to another has the line of the first. -/
theorem labels_join (h : Tiles source tokens) (ht : t ∈ tokens) (hu : u ∈ tokens) :
    (Mark.mk (t.span.join u.span) t.line).Labels source := by
  refine .of_isBoundary (h.pieces t ht).1 (h.isBoundary ht).1
    ((h.isBoundary ht).1.min (h.isBoundary hu).1) ?_
  have hle := h.start_le ht
  dsimp only [Span.join]
  omega

/-- The end of the source is its last token, and stands behind all its bytes. -/
theorem eq_nil_of_sourceEnd {before after : List Token} {stop : Token}
    (h : Tiles source (before ++ stop :: after)) (hs : stop.kind = .sourceEnd) :
    after = [] ∧ stop.span.start = source.utf8ByteSize := by
  obtain ⟨ts, hts, hall⟩ := h.ends
  obtain rfl | ⟨us, last, rfl⟩ := List.eq_nil_or_concat' after
  · obtain ⟨-, hstop⟩ := List.append_inj' hts rfl
    rw [List.singleton_inj.1 hstop]
    exact ⟨rfl, rfl⟩
  · rw [← List.cons_append, ← List.append_assoc] at hts
    obtain ⟨rfl, -⟩ := List.append_inj' hts rfl
    exact absurd hs (hall stop (by simp)).1

/-- The byte behind the last token is past the source, or a character of its own, or the first byte
of a wider white space. -/
theorem isBoundary_next_or_splits {before after : List Token} {last stop : Token}
    (h : Tiles source (before ++ stop :: after)) (hs : stop.kind = .sourceEnd)
    (hl : [last] <:+ before) :
    IsBoundary source.toList (last.span.next.clamp source.utf8ByteSize).stop ∨
      last.span.next.Splits source.toList := by
  obtain ⟨gap, rest, ⟨front, hsplit, hstart, hstop⟩, hgap⟩ := h.gaps before stop after rfl
  have hlast : stopOf before = last.span.stop := by
    obtain ⟨us, rfl⟩ := hl
    simp [stopOf]
  rw [hlast] at hstart
  rw [(h.eq_nil_of_sourceEnd hs).2] at hstop
  dsimp only at hstart hstop
  -- a character of one byte ends between two characters
  have hnarrow (c : Char) (cs : List Char) (hc : gap = c :: cs) (hsize : c.utf8Size = 1) :
      IsBoundary source.toList (last.span.next.clamp source.utf8ByteSize).stop := by
    refine Span.isBoundary_clamp_stop ⟨front ++ [c], cs ++ rest, by simp [hsplit, hc], ?_⟩
    rw [String.utf8Len_append, hstart, String.utf8Len_cons, String.utf8Len_nil, hsize]
    rfl
  cases hgap with
  | nil =>
    left
    rw [List.append_nil, hstart] at hstop
    have hclamp : (last.span.next.clamp source.utf8ByteSize).stop = utf8Len source.toList := by
      rw [String.utf8Len_toList, ← hstop]
      exact Nat.min_eq_right (Nat.le_succ _)
    rw [hclamp]
    exact isBoundary_utf8Len source.toList
  | @white c cs _ hc _ =>
    by_cases hwide : 1 < c.utf8Size
    · refine .inr ⟨front, c, cs ++ rest, hsplit, hc, hwide, ?_⟩
      rw [Span.next, hstart]
    · have hpos := c.utf8Size_pos
      exact .inl (hnarrow c cs rfl (by omega))
  | comment hb hr h => exact .inl (hnarrow '-' _ rfl rfl)

end Token.Tiles

/-- A refusal has its label in the source. It ends within a character only in a wide white space,
where a token is missing at the end of the source. -/
theorem Parse.Refusal.labels {source : String} {before after : List Token} {stop : Token}
    {d : Diagnostic} (h : Refusal stop before d) (ht : Tiles source (before ++ stop :: after)) :
    d.mark.Labels source ∧
      (IsBoundary source.toList (d.mark.span.clamp source.utf8ByteSize).stop ∨
        d.mark.span.Splits source.toList ∧
          ∃ what, d.fault = .grammatical (.expected what none)) := by
  have hmem {t : Token} (h : t ∈ before ∨ t = stop) : t ∈ before ++ stop :: after := by
    obtain h | rfl := h
    · exact List.mem_append_left _ h
    · simp
  cases h with
  | @blamed t fault hstands hf =>
    exact ⟨ht.labels (hmem hstands),
      .inl (Span.isBoundary_clamp_stop (ht.isBoundary (hmem hstands)).2)⟩
  | @parentheses opening closing h =>
    have hopening := hmem (.inl (h.subset (List.mem_cons_self : opening ∈ [opening, closing])))
    have hclosing := hmem (.inl (h.subset (by simp : closing ∈ [opening, closing])))
    exact ⟨ht.labels_join hopening hclosing, .inl (Span.isBoundary_clamp_stop
      ((ht.isBoundary hopening).2.max (ht.isBoundary hclosing).2))⟩
  | @ended last what hl hs =>
    have hlast := hmem (.inl (hl.subset (List.mem_singleton_self last)))
    have hstop := hmem (.inr (rfl : stop = stop))
    exact ⟨.of_isBoundary (ht.pieces stop hstop).1 (ht.isBoundary hstop).1 (ht.isBoundary hlast).2
      (Nat.le_succ _), (ht.isBoundary_next_or_splits hs hl).imp_right fun h => ⟨h, what, rfl⟩⟩

namespace Program

/-- A refused source text is marked on one of its lines, and the part of the mark within the text
is cut out between characters, but for what is missing at the end: the mark of that cuts a
white space of more than one byte that stands behind the last token. -/
theorem labels_of_ofSource_eq_error {source : String} {d : Diagnostic}
    (h : ofSource source = .error d) :
    d.mark.Labels source ∧
      (IsBoundary source.toList (d.mark.span.clamp source.utf8ByteSize).stop ↔
        ¬d.mark.span.Splits source.toList) ∧
      (d.mark.span.Splits source.toList →
        ∃ what, d.fault = .grammatical (.expected what none)) := by
  have hlabels : d.mark.Labels source ∧
      (IsBoundary source.toList (d.mark.span.clamp source.utf8ByteSize).stop ∨
        d.mark.span.Splits source.toList ∧
          ∃ what, d.fault = .grammatical (.expected what none)) := by
    obtain ⟨before, piece, after, fault, hsplit, rfl⟩ | ⟨before, stop, after, hts, hrefusal⟩ :=
      ofSource_eq_error h
    · have hcuts : Cuts source.toList ⟨utf8Len before, utf8Len (before ++ piece)⟩ piece after :=
        ⟨before, hsplit, rfl, rfl⟩
      have hline := lineAt_append (before ++ piece) after
      rw [List.append_assoc, ← hsplit] at hline
      refine ⟨.of_isBoundary hline.symm hcuts.isBoundary.2 hcuts.isBoundary.1 ?_,
        .inl (Span.isBoundary_clamp_stop hcuts.isBoundary.2)⟩
      rw [String.utf8Len_append]
      exact Nat.le_add_right _ _
    · exact hrefusal.labels (tiles_of_ofSource hts)
  refine ⟨hlabels.1, ⟨fun hb hs => Span.not_isBoundary_of_splits hs hb, fun hs => ?_⟩, fun hs => ?_⟩
  · exact hlabels.2.resolve_right fun h => hs h.1
  · exact (hlabels.2.resolve_left (Span.not_isBoundary_of_splits hs)).2

theorem ofSource_wideSpace : ofSource "SUGOD\u00a0" =
    .error ⟨.grammatical (.expected .programEnd none), ⟨⟨5, 6⟩, 1⟩⟩ := by
  have htokens : Token.ofSource "SUGOD\u00a0" =
      .ok [⟨.keyword .sugod, "SUGOD", ⟨0, 5⟩, 1⟩, ⟨.sourceEnd, "", ⟨7, 7⟩, 1⟩] := by decide +kernel
  rw [ofSource, htokens]
  cbv

theorem splits_wideSpace : Span.Splits "SUGOD\u00a0".toList ⟨5, 6⟩ :=
  ⟨"SUGOD".toList, '\u00a0', [], by decide +kernel⟩

/-- A space of two bytes stands where the closing keyword is missing. -/
theorem labels_of_ofSource_eq_error_wideSpace :
    let source := "SUGOD\u00a0"
    ∃ d, ofSource source = .error d ∧ d.mark = ⟨⟨5, 6⟩, 1⟩ ∧ d.mark.Labels source ∧
      ¬IsBoundary source.toList (d.mark.span.clamp source.utf8ByteSize).stop := by
  intro source
  obtain ⟨hlabels, hstop, -⟩ := labels_of_ofSource_eq_error ofSource_wideSpace
  exact ⟨_, ofSource_wideSpace, rfl, hlabels, fun hb => hstop.1 hb splits_wideSpace⟩

/-- Not every mark that is cut to the size of the source cuts it between characters. -/
theorem not_isBoundary_of_ofSource_eq_error :
    ¬∀ source d, ofSource source = .error d → d.mark.Labels source ∧
      IsBoundary source.toList (d.mark.span.clamp source.utf8ByteSize).stop := fun h =>
  Span.not_isBoundary_of_splits splits_wideSpace (h _ _ ofSource_wideSpace).2

end Program

end BisayaPlus
