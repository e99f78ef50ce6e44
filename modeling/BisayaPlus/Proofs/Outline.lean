import BisayaPlus.Program
import BisayaPlus.Proofs.Offsets

/-!
The outline of a program says where its parts stand in the source and on which lines. It is proper
if each part has a place in the source that holds the places of its own parts, these stand one
after another, and the line of a part is one of the lines of its place.
-/

namespace BisayaPlus

open Text

structure Span.Lies (source : List Char) (s : Span) : Prop where
  nonempty : s.start < s.stop
  start : IsBoundary source s.start
  stop : IsBoundary source s.stop

structure Mark.Lies (source : List Char) (m : Mark) : Prop where
  span : m.span.Lies source
  first : lineAt source m.span.start ≤ m.line
  last : m.line ≤ lineAt source m.span.stop

/-- The place of a part of a program, its line if it has one, and the parts of the part. -/
inductive Outline where
  | mk (span : Span) (line : Option Nat) (parts : List Outline)

def Outline.span : Outline → Span
  | .mk span _ _ => span

inductive Outline.Proper (source : List Char) : Outline → Prop
  | mk {span : Span} {line : Option Nat} {parts : List Outline} (hspan : span.Lies source)
      (hline : ∀ n ∈ line, Mark.Lies source ⟨span, n⟩)
      (hinside : ∀ part ∈ parts, span.start ≤ part.span.start ∧ part.span.stop ≤ span.stop)
      (hordered : parts.Pairwise fun part other => part.span.stop ≤ other.span.start)
      (hparts : ∀ part ∈ parts, part.Proper source) : Proper source (.mk span line parts)

def Expr.outline : Expr → Outline
  | .literal _ m | .name _ m => .mk m.span m.line []
  | .unary _ e m => .mk m.span m.line [e.outline]
  | .binary _ l r m => .mk m.span m.line [l.outline, r.outline]

def Declarator.outline (d : Declarator) : Outline :=
  .mk d.mark.span d.mark.line []

def Assignment.outline (a : Assignment) : Outline :=
  .mk a.mark.span a.mark.line [a.value.outline]

mutual

def Stmt.outline : Stmt → Outline
  | .declaration _ ds span => .mk span none (ds.map (·.outline))
  | .assignment a => a.outline
  | .output es span => .mk span none (es.map (·.outline))
  | .input _ m => .mk m.span m.line []
  | .conditional first others otherwise span =>
    .mk span none (first.outlines ++ (Branch.outlinesAll others ++ Block.outlines otherwise))
  | .loop initializer condition increment body span =>
    .mk span none
      [initializer.outline, condition.outline, increment.outline, body.outline]

def Branch.outlines : Branch → List Outline
  | .mk condition body => [condition.outline, body.outline]

def Branch.outlinesAll : List Branch → List Outline
  | [] => []
  | b :: bs => b.outlines ++ Branch.outlinesAll bs

def Block.outline : Block → Outline
  | .mk statements span => .mk span none (Stmt.outlines statements)

def Block.outlines : Option Block → List Outline
  | none => []
  | some b => [b.outline]

def Stmt.outlines : List Stmt → List Outline
  | [] => []
  | s :: ss => s.outline :: Stmt.outlines ss

end

def Program.outlines (p : Program) : List Outline :=
  Stmt.outlines p.statements

@[simp] theorem Expr.span_outline (e : Expr) : e.outline.span = e.mark.span := by
  cases e <;> rfl

@[simp] theorem Block.span_outline (b : Block) : b.outline.span = b.span := by
  cases b
  rfl

theorem Span.join_eq {a b : Span} (hstart : a.start ≤ b.start) (hstop : a.stop ≤ b.stop) :
    a.join b = ⟨a.start, b.stop⟩ := by
  rw [Span.join, Nat.min_eq_left hstart, Nat.max_eq_right hstop]

namespace Outline

variable {source : List Char}

theorem Proper.lies {o : Outline} (h : o.Proper source) : o.span.Lies source := by
  cases h with
  | mk hspan hline hinside hordered hparts => exact hspan

/-- Proper outlines one after another, from one byte to another. -/
inductive Fits (source : List Char) : Nat → Nat → List Outline → Prop
  | nil {a b : Nat} (h : a ≤ b) : Fits source a b []
  | cons {a b : Nat} {o : Outline} {os : List Outline} (h : a ≤ o.span.start)
      (ho : o.Proper source) (hos : Fits source o.span.stop b os) : Fits source a b (o :: os)

namespace Fits

variable {a b c : Nat} {o : Outline} {os us : List Outline}

theorem single (ha : a ≤ o.span.start) (ho : o.Proper source) (hb : o.span.stop ≤ b) :
    Fits source a b [o] :=
  .cons ha ho (.nil hb)

theorem of_single (h : Fits source a b [o]) :
    a ≤ o.span.start ∧ o.Proper source ∧ o.span.stop ≤ b := by
  cases h with
  | cons h ho hos =>
    cases hos with
    | nil hb => exact ⟨h, ho, hb⟩

theorem le (h : Fits source a b os) : a ≤ b := by
  induction h with
  | nil h => exact h
  | cons h ho hos ih =>
    have hlt := ho.lies.nonempty
    omega

/-- Outlines that fit in front of others fit together with them. -/
theorem append (h : Fits source a b os) (h' : Fits source b c us) :
    Fits source a c (os ++ us) := by
  induction h with
  | nil h =>
    cases h' with
    | nil h' => exact .nil (Nat.le_trans h h')
    | cons h' ho hos => exact .cons (Nat.le_trans h h') ho hos
  | cons h ho hos ih => exact .cons h ho (ih h')

theorem mono {a' b' : Nat} (h : Fits source a b os) (ha : a' ≤ a) (hb : b ≤ b') :
    Fits source a' b' os := by
  have h' := (Fits.nil ha).append (h.append (.nil hb))
  rwa [List.nil_append, List.append_nil] at h'

theorem inside (h : Fits source a b os) :
    ∀ o ∈ os, a ≤ o.span.start ∧ o.span.stop ≤ b := by
  induction h with
  | nil => exact List.forall_mem_nil _
  | @cons a b o os h ho hos ih =>
    refine List.forall_mem_cons.2 ⟨⟨h, hos.le⟩, fun u hu => ?_⟩
    have hlt := ho.lies.nonempty
    have hin := ih u hu
    omega

/-- Outlines that fit do not overlap. -/
theorem ordered (h : Fits source a b os) :
    os.Pairwise fun o u => o.span.stop ≤ u.span.start := by
  induction h with
  | nil => exact .nil
  | cons h ho hos ih => exact List.pairwise_cons.2 ⟨fun u hu => (hos.inside u hu).1, ih⟩

theorem proper (h : Fits source a b os) : ∀ o ∈ os, o.Proper source := by
  induction h with
  | nil => exact List.forall_mem_nil _
  | cons h ho hos ih => exact List.forall_mem_cons.2 ⟨ho, ih⟩

end Fits

/-- An outline is proper if its parts fit into its place. -/
theorem Proper.of_fits {span : Span} {line : Option Nat} {os : List Outline}
    (hspan : span.Lies source) (hline : ∀ n ∈ line, Mark.Lies source ⟨span, n⟩)
    (h : Fits source span.start span.stop os) : Proper source (.mk span line os) :=
  .mk hspan hline h.inside h.ordered h.proper

/-- Two parts one after another make a part that reaches from the one to the other. -/
theorem Proper.pair {l r : Outline} {n : Nat} (hl : l.Proper source) (hr : r.Proper source)
    (h : l.span.stop ≤ r.span.start) (hfirst : lineAt source l.span.start ≤ n)
    (hlast : n ≤ lineAt source r.span.stop) :
    Proper source (.mk ⟨l.span.start, r.span.stop⟩ n [l, r]) := by
  have hlt := hl.lies.nonempty
  have hlt' := hr.lies.nonempty
  have hspan : Span.Lies source ⟨l.span.start, r.span.stop⟩ :=
    ⟨by dsimp only; omega, hl.lies.start, hr.lies.stop⟩
  refine .of_fits hspan (fun m hm => ?_) ?_
  · obtain rfl := Option.mem_some_iff.1 hm
    exact ⟨hspan, hfirst, hlast⟩
  · exact .cons (Nat.le_refl _) hl (.single h hr (Nat.le_refl _))

/-- A part with the same place as the one that it is made of. -/
theorem Proper.only {o : Outline} {n : Nat} (h : o.Proper source)
    (hfirst : lineAt source o.span.start ≤ n) (hlast : n ≤ lineAt source o.span.stop) :
    Proper source (.mk o.span n [o]) := by
  refine .of_fits h.lies (fun m hm => ?_) (.single (Nat.le_refl _) h (Nat.le_refl _))
  obtain rfl := Option.mem_some_iff.1 hm
  exact ⟨h.lies, hfirst, hlast⟩

end Outline

end BisayaPlus
