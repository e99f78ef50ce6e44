import BisayaPlus.Token.Source
import Mathlib.Data.String.Basic

/-!
Byte offsets in a text. An offset is on a boundary if it counts the bytes of some characters at
the front. The line of an offset is found by counting the line feeds before it.
-/

namespace BisayaPlus

open String (utf8Len)

namespace Text

/-- The characters of a text that begin before a byte offset. -/
def front : List Char → Nat → List Char
  | [], _ => []
  | c :: cs, n => if n = 0 then [] else c :: front cs (n - c.utf8Size)

theorem front_append (before after : List Char) :
    front (before ++ after) (utf8Len before) = before := by
  induction before with
  | nil => cases after <;> simp [front]
  | cons c cs ih =>
    have hc := c.utf8Size_pos
    have hne : utf8Len (c :: cs) ≠ 0 := by
      rw [String.utf8Len_cons]
      omega
    have hsub : utf8Len (c :: cs) - c.utf8Size = utf8Len cs := by
      rw [String.utf8Len_cons]
      omega
    rw [List.cons_append, front, if_neg hne, hsub, ih]

theorem front_prefix_front (cs : List Char) {m n : Nat} (h : m ≤ n) :
    front cs m <+: front cs n := by
  induction cs generalizing m n with
  | nil => exact List.nil_prefix
  | cons c cs ih =>
    by_cases hm : m = 0
    · simp [front, hm]
    · have hn : n ≠ 0 := by omega
      rw [front, if_neg hm, front, if_neg hn]
      exact List.cons_prefix_cons.2 ⟨rfl, ih (by omega)⟩

def lineAt (source : List Char) (n : Nat) : Nat :=
  1 + (front source n).count '\n'

/-- The line behind a piece of text is told by its line feeds. -/
theorem lineAt_append (before after : List Char) :
    lineAt (before ++ after) (utf8Len before) = 1 + before.count '\n' := by
  rw [lineAt, front_append]

theorem lineAt_mono (source : List Char) {m n : Nat} (h : m ≤ n) :
    lineAt source m ≤ lineAt source n := by
  have hcount := (front_prefix_front source h).sublist.count_le '\n'
  unfold lineAt
  omega

def IsBoundary (source : List Char) (n : Nat) : Prop :=
  ∃ before after, source = before ++ after ∧ utf8Len before = n

theorem IsBoundary.le {source : List Char} {n : Nat} (h : IsBoundary source n) :
    n ≤ utf8Len source := by
  obtain ⟨before, after, rfl, rfl⟩ := h
  rw [String.utf8Len_append]
  omega

/-- A span cuts a piece out of a text and leaves some text after it. -/
def Cuts (source : List Char) (s : Span) (piece after : List Char) : Prop :=
  ∃ before, source = before ++ (piece ++ after) ∧ utf8Len before = s.start ∧
    utf8Len (before ++ piece) = s.stop

/-- A span that cuts out a piece begins and ends between two characters. -/
theorem Cuts.isBoundary {source piece after : List Char} {s : Span}
    (h : Cuts source s piece after) : IsBoundary source s.start ∧ IsBoundary source s.stop := by
  obtain ⟨before, rfl, hstart, hstop⟩ := h
  exact ⟨⟨before, piece ++ after, rfl, hstart⟩, before ++ piece, after, by simp, hstop⟩

end Text

namespace Position

/-- A position moves over a piece of text by its bytes and by its line feeds. -/
theorem after_eq (p : Position) (cs : List Char) :
    p.after cs = ⟨p.byte + utf8Len cs, p.line + cs.count '\n'⟩ := by
  induction cs generalizing p with
  | nil => rfl
  | cons c cs ih =>
    have hstep : p.after (c :: cs) = (p.next c).after cs := rfl
    rw [hstep, ih]
    by_cases hc : c = '\n'
    · simp only [next, hc, if_true, String.utf8Len_cons, List.count_cons_self]
      congr 1 <;> omega
    · simp only [next, hc, if_false, String.utf8Len_cons, List.count_cons_of_ne hc]
      congr 1
      omega

theorem start_after (cs : List Char) :
    start.after cs = ⟨utf8Len cs, 1 + cs.count '\n'⟩ := by
  rw [after_eq, start, Nat.zero_add]

end Position

end BisayaPlus
