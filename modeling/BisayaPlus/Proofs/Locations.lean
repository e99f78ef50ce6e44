import BisayaPlus.Proofs.FiniteNumbers
import BisayaPlus.Proofs.Placement
import BisayaPlus.Proofs.Tiling

/-!
The places that a program and its faults name are places in its source. For the program this is
how it was read from the tokens of the source. A fault of a run is marked with a part of the
program, or with an output statement and the line of its first value.
-/

namespace BisayaPlus

open Text Outline

namespace Action

variable {α β : Type} {p : Mark → Prop}

/-- Each fault of the action has a mark with the property. -/
def Blames (p : Mark → Prop) (act : Action α) : Prop :=
  ∀ m d m', act m = .error (.fault d) m' → p d.mark

theorem blames_pure (a : α) : Blames p (pure a) := by
  intro m d m' h
  cases h

theorem blames_budgetSpent : Blames p (throw .budgetSpent : Action α) := by
  intro m d m' h
  cases h

theorem blames_get : Blames p get := by
  intro m d m' h
  cases h

theorem blames_set (m : Machine) : Blames p (set m) := by
  intro m d m' h
  cases h

theorem blames_fail {mark : Mark} (h : p mark) (fault : Fault) :
    Blames p (fail fault mark : Action α) := by
  intro m d m' hd
  cases hd
  exact h

/-- Actions in sequence blame what each of them blames. -/
theorem Blames.bind {x : Action α} {f : α → Action β} (hx : Blames p x)
    (hf : ∀ a, Blames p (f a)) : Blames p (x >>= f) := by
  intro m d m' h
  cases hr : x m with
  | ok a n =>
    rw [bind_apply_of_ok hr] at h
    exact hf a n d m' h
  | error i n =>
    rw [bind_apply_of_error hr] at h
    cases h
    exact hx m d _ hr

theorem blames_forM {act : α → Action Unit} {as : List α} (h : ∀ a ∈ as, Blames p (act a)) :
    Blames p (as.forM act) := by
  induction as with
  | nil => exact blames_pure ()
  | cons a as ih =>
    obtain ⟨ha, has⟩ := List.forall_mem_cons.1 h
    rw [List.forM_eq_forM, List.forM_cons]
    exact ha.bind fun _ => ih has

theorem blames_ofStore {f : Store → Except Diagnostic α} (h : ∀ s d, f s = .error d → p d.mark) :
    Blames p (ofStore f) := by
  intro m d m' hd
  unfold ofStore at hd
  cases hr : f m.store with
  | ok a =>
    rw [hr] at hd
    cases hd
  | error e =>
    rw [hr] at hd
    cases hd
    exact h m.store _ hr

theorem blames_onStore {f : Store → Except NameFault Store} {mark : Mark} (h : p mark) :
    Blames p (onStore f mark) := by
  intro m d m' hd
  unfold onStore at hd
  cases hr : f m.store with
  | ok s =>
    rw [hr] at hd
    cases hd
  | error e =>
    rw [hr] at hd
    cases hd
    exact h

theorem blames_repeatWhile {test : Action Bool} {turn : Action Unit} (htest : Blames p test)
    (hturn : Blames p turn) (budget : Nat) : Blames p (repeatWhile test turn budget) := by
  induction budget with
  | zero => exact blames_budgetSpent
  | succ budget ih =>
    refine htest.bind fun holds => ?_
    cases holds with
    | false => exact blames_pure ()
    | true => exact hturn.bind fun _ => ih

theorem blames_write (line : String) : Blames p (write line) :=
  blames_get.bind fun _ => (blames_set _).bind fun _ => blames_pure _

theorem blames_readLine {mark : Mark} (h : p mark) (targets : List String) :
    Blames p (readLine targets mark) := by
  refine blames_get.bind fun m => (blames_set _).bind fun _ => ?_
  cases Text.decode? (Console.firstLine m.console.input).1 with
  | none => exact blames_fail h _
  | some text =>
    by_cases hempty : text.isEmpty
    · simp only [hempty, if_true]
      exact (blames_fail h _).bind fun _ => blames_pure text
    · simp only [hempty]
      exact blames_pure text

theorem blames_input {mark : Mark} (h : p mark) (targets : List String) :
    Blames p (input targets mark) := by
  rw [input_eq]
  refine Blames.bind (blames_get.bind fun m => ?_) fun pieces =>
    blames_forM fun _ _ => blames_onStore h
  cases targets.find? (!m.store.contains ·) with
  | some name => exact blames_fail h _
  | none =>
    refine (blames_readLine h targets).bind fun line => ?_
    by_cases hfew : (Console.pieces line).length < targets.length
    · simp only [hfew, if_true]
      exact (blames_fail h _).bind fun _ => blames_pure _
    · simp only [hfew, if_false]
      exact blames_pure _

end Action

open BisayaPlus.Action

variable {source : List Char}

namespace Outline.Proper

variable {span : Span} {line : Option Nat} {os : List Outline}

theorem parts (h : Proper source (.mk span line os)) : ∀ o ∈ os, o.Proper source := by
  cases h with
  | mk hspan hline hinside hordered hparts => exact hparts

theorem mark {n : Nat} (h : Proper source (.mk span (some n) os)) :
    Mark.Lies source ⟨span, n⟩ := by
  cases h with
  | mk hspan hline => exact hline n rfl

end Outline.Proper

theorem Expr.mark_lies {e : Expr} (h : e.outline.Proper source) : e.mark.Lies source := by
  cases e <;> exact h.mark

/-- An expression that fails blames a part of itself, which lies in the source. -/
theorem Expr.mark_lies_of_eval {e : Expr} {s : Store} {d : Diagnostic}
    (h : e.outline.Proper source) (hd : e.eval s = .error d) : d.mark.Lies source := by
  induction e generalizing d with
  | literal v mark => cases hd
  | name x mark =>
    obtain ⟨f, -, rfl⟩ := Except.mapError_eq_error_iff.1 hd
    exact h.mark
  | unary op e mark ih =>
    rcases Except.bind_eq_error_iff.1 hd with hd | ⟨v, -, hd⟩
    · exact ih (List.forall_mem_singleton.1 h.parts) hd
    · obtain ⟨f, -, rfl⟩ := Except.mapError_eq_error_iff.1 hd
      exact h.mark
  | binary op l r mark ihl ihr =>
    obtain ⟨hl, hr⟩ := List.forall_mem_cons.1 h.parts
    rcases Except.bind_eq_error_iff.1 hd with hd | ⟨v, -, hd⟩
    · exact ihl hl hd
    rcases Except.bind_eq_error_iff.1 hd with hd | ⟨w, -, hd⟩
    · exact ihr (List.forall_mem_singleton.1 hr) hd
    · obtain ⟨f, -, rfl⟩ := Except.mapError_eq_error_iff.1 hd
      exact h.mark

theorem Expr.blames_test {e : Expr} (h : e.outline.Proper source) :
    Blames (Mark.Lies source) (ofStore fun s => e.test s) := by
  refine blames_ofStore fun s d hd => ?_
  rcases Except.bind_eq_error_iff.1 hd with hd | ⟨v, -, hd⟩
  · exact Expr.mark_lies_of_eval h hd
  · obtain ⟨m, -, rfl⟩ := Except.mapError_eq_error_iff.1 hd
    exact Expr.mark_lies h

theorem Declarator.blames {d : Declarator} (h : d.outline.Proper source) (type : DataType) :
    Blames (Mark.Lies source) (d.exec type) := by
  refine (blames_ofStore fun s e he => ?_).bind fun v => blames_onStore h.mark
  split at he
  · obtain ⟨f, -, rfl⟩ := Except.mapError_eq_error_iff.1 he
    exact h.mark
  · cases he

theorem Assignment.blames {a : Assignment} (h : a.outline.Proper source) :
    Blames (Mark.Lies source) a.exec := by
  refine (blames_ofStore fun s d hd => ?_).bind fun v => blames_forM fun x _ => ?_
  · exact Expr.mark_lies_of_eval (List.forall_mem_singleton.1 h.parts) hd
  · exact blames_onStore h.mark

/-- An output statement is marked with the line of its first value, which is one of its own. -/
theorem outputMark_lies {es : List Expr} {span : Span} (hne : es ≠ [])
    (h : (Stmt.output es span).outline.Proper source) : (outputMark es span).Lies source := by
  obtain ⟨e, es, rfl⟩ := List.exists_cons_of_ne_nil hne
  cases h with
  | mk hspan hline hinside hordered hparts =>
    have he := Expr.mark_lies (hparts e.outline List.mem_cons_self)
    have hin := hinside e.outline List.mem_cons_self
    rw [Expr.span_outline] at hin
    exact ⟨hspan, (lineAt_mono source hin.1).trans he.first,
      he.last.trans (lineAt_mono source hin.2)⟩

/-- What an output statement blames lies in the source, also if the sink refuses the line. -/
theorem blames_output {es : List Expr} {span : Span} (hne : es ≠ [])
    (h : (Stmt.output es span).outline.Proper source) :
    Blames (Mark.Lies source) (Action.output es span) := by
  refine (blames_ofStore fun s d hd => ?_).bind fun vs => (blames_write _).bind fun answer => ?_
  · obtain ⟨e, he, hd⟩ := Except.exists_of_mapM_eq_error hd
    exact Expr.mark_lies_of_eval (h.parts e.outline (List.mem_map_of_mem he)) hd
  · cases answer with
    | ok => exact blames_pure ()
    | error reason => exact blames_fail (outputMark_lies hne h) _

mutual

/-- Each fault of a statement is blamed on a place in the source. -/
theorem Stmt.blames {s : Stmt} (hs : s.WellFormed) (h : s.outline.Proper source) (budget : Nat) :
    Blames (Mark.Lies source) (s.exec budget) := by
  cases s with
  | declaration type ds span =>
    exact blames_forM fun d hd => Declarator.blames (h.parts _ (List.mem_map_of_mem hd)) type
  | assignment a => exact Assignment.blames h
  | output es span => exact blames_output hs.1 h
  | input targets mark => exact blames_input h.mark targets
  | conditional first others otherwise span =>
    obtain ⟨hfirst, hrest⟩ := List.forall_mem_append.1 h.parts
    obtain ⟨hothers, hotherwise⟩ := List.forall_mem_append.1 hrest
    exact Branch.blames hs.1 hfirst budget
      (Branch.blames_all hs.2.1 hothers budget (Block.blames_optional hs.2.2 hotherwise budget))
  | loop initializer condition increment body span =>
    obtain ⟨-, hs, -, -, hb⟩ := hs
    obtain ⟨hinitializer, hrest⟩ := List.forall_mem_cons.1 h.parts
    obtain ⟨hcondition, hrest⟩ := List.forall_mem_cons.1 hrest
    obtain ⟨hincrement, hrest⟩ := List.forall_mem_cons.1 hrest
    have hbody := Block.blames hb (List.forall_mem_singleton.1 hrest) budget
    have hturn := hbody.bind fun _ => Assignment.blames hincrement
    exact (Stmt.blames hs hinitializer budget).bind fun _ =>
      blames_repeatWhile (Expr.blames_test hcondition) hturn budget

theorem Branch.blames {b : Branch} (hb : b.WellFormed) (h : ∀ o ∈ b.outlines, o.Proper source)
    (budget : Nat) {alternative : Action Unit} (ha : Blames (Mark.Lies source) alternative) :
    Blames (Mark.Lies source) (b.exec budget alternative) := by
  cases b with
  | mk condition body =>
    obtain ⟨hcondition, hbody⟩ := List.forall_mem_cons.1 h
    refine (Expr.blames_test hcondition).bind fun holds => ?_
    cases holds with
    | false => exact ha
    | true => exact Block.blames hb.2 (List.forall_mem_singleton.1 hbody) budget

theorem Branch.blames_all {bs : List Branch} (hbs : Branch.AllWellFormed bs)
    (h : ∀ o ∈ Branch.outlinesAll bs, o.Proper source) (budget : Nat)
    {alternative : Action Unit} (ha : Blames (Mark.Lies source) alternative) :
    Blames (Mark.Lies source) (Branch.execAll budget bs alternative) := by
  cases bs with
  | nil => exact ha
  | cons b bs =>
    obtain ⟨hb, hothers⟩ := List.forall_mem_append.1 h
    exact Branch.blames hbs.1 hb budget (Branch.blames_all hbs.2 hothers budget ha)

theorem Block.blames {b : Block} (hb : b.WellFormed) (h : b.outline.Proper source)
    (budget : Nat) : Blames (Mark.Lies source) (b.exec budget) := by
  cases b with
  | mk statements span => exact Stmt.blames_all hb h.parts budget

theorem Block.blames_optional {b : Option Block} (hb : Block.OptionalWellFormed b)
    (h : ∀ o ∈ Block.outlines b, o.Proper source) (budget : Nat) :
    Blames (Mark.Lies source) (Block.execOptional budget b) := by
  cases b with
  | none => exact blames_pure ()
  | some b => exact Block.blames hb (List.forall_mem_singleton.1 h) budget

theorem Stmt.blames_all {ss : List Stmt} (hss : Stmt.AllWellFormed ss)
    (h : ∀ o ∈ Stmt.outlines ss, o.Proper source) (budget : Nat) :
    Blames (Mark.Lies source) (Stmt.execAll budget ss) := by
  cases ss with
  | nil => exact blames_pure ()
  | cons s ss =>
    obtain ⟨hs, hothers⟩ := List.forall_mem_cons.1 h
    exact (Stmt.blames hss.1 hs budget).bind fun _ => Stmt.blames_all hss.2 hothers budget

end

/-- The tokens of a source stand in it one after another, up to the token for its end. -/
theorem Token.Tiles.row {source : String} {tokens ts rest : List Token} (h : Tiles source tokens)
    (hts : tokens = ts ++ rest) (hend : ∀ t ∈ ts, t.kind ≠ .sourceEnd) :
    Row source.toList ts where
  stands t ht := by
    have hmem : t ∈ tokens := hts ▸ List.mem_append_left rest ht
    obtain ⟨hline, piece, after, hcuts, -⟩ := h.pieces t hmem
    obtain ⟨us, hus, hall⟩ := h.ends
    have hnonempty : t.span.start < t.span.stop := by
      rcases List.mem_append.1 (hus ▸ hmem) with hu | hlast
      · exact (hall t hu).2
      · obtain rfl := List.mem_singleton.1 hlast
        exact absurd rfl (hend _ ht)
    exact ⟨⟨hnonempty, hcuts.isBoundary.1, hcuts.isBoundary.2⟩, hline⟩
  ordered := by
    have hprefix : ts.Sublist tokens := hts ▸ List.sublist_append_left ts rest
    exact (h.ordered.sublist hprefix).imp fun hle => hle.2

/-- The statements of a program lie in its source one after another. -/
theorem Program.fits_of_ofSource {source : String} {p : Program}
    (h : Program.ofSource source = .ok p) : ∃ a b, Fits source.toList a b p.outlines := by
  obtain ⟨tokens, htokens, h⟩ := Except.bind_eq_ok_iff.1 h
  obtain ⟨start, body, close, rest, last, htks, hstart, -, hbody, hss⟩ := ofTokens_eq_ok_iff.1 h
  have hsplit : tokens = (start :: body) ++ close :: rest := htks
  have hrow : Token.Row source.toList (start :: body) := by
    refine (Token.tiles_of_ofSource htokens).row hsplit ?_
    refine List.forall_mem_cons.2 ⟨by simp [hstart], fun t ht hk => ?_⟩
    have hend := hbody t ht
    simp [endsBody, hk] at hend
  exact ⟨_, _, (Parse.placed_statements hrow hss).fits⟩

/-- In a program that was read from a source, each part stands in the source and within the part
that it belongs to, parts one after another do not overlap, and lines belong to their places. The
faults of its runs are marked with places and lines of the source. -/
theorem Program.located_of_ofSource {source : String} {p : Program}
    (h : Program.ofSource source = .ok p) :
    (∀ o ∈ p.outlines, o.Proper source.toList) ∧
      p.outlines.Pairwise (fun o u => o.span.stop ≤ u.span.start) ∧
      ∀ budget m d m', p.exec budget m = .error (.fault d) m' → d.mark.Lies source.toList := by
  obtain ⟨a, b, hfits⟩ := Program.fits_of_ofSource h
  exact ⟨hfits.proper, hfits.ordered,
    Stmt.blames_all (Program.wellFormed_of_ofSource h) hfits.proper⟩

def Program.faultMark? (budget : Nat) (source : String) : Option Mark :=
  match Program.ofSource source with
  | .ok p =>
    match p.exec budget (.start (.ofInput [])) with
    | .error (.fault d) _ => some d.mark
    | _ => none
  | .error _ => none

theorem Program.exists_of_faultMark?_eq_some {budget : Nat} {source : String} {mark : Mark}
    (h : faultMark? budget source = some mark) :
    ∃ p, ofSource source = .ok p ∧
      ∃ d m', p.exec budget (.start (.ofInput [])) = .error (.fault d) m' ∧ d.mark = mark := by
  unfold faultMark? at h
  split at h
  · rename_i p hp
    split at h
    · rename_i d m' hd
      exact ⟨p, hp, d, m', hd, Option.some.inj h⟩
    · cases h
  · cases h

/-- A run of a loop whose name is not declared fails in the first clause of the loop. -/
theorem Program.located_of_ofSource_undeclared :
    let source := "SUGOD\nALANG SA\n(é = 1, é < 2, é++) PUNDOK{ IPAKITA: é }\nKATAPUSAN"
    ∃ p, Program.ofSource source = .ok p ∧ (∀ o ∈ p.outlines, o.Proper source.toList) ∧
      p.outlines.Pairwise (fun o u => o.span.stop ≤ u.span.start) ∧
      ∃ d m', p.exec 3 (.start (.ofInput [])) = .error (.fault d) m' ∧
        d.mark = ⟨⟨16, 22⟩, 3⟩ ∧ d.mark.Lies source.toList := by
  intro source
  have hrun : Program.faultMark? 3 source = some ⟨⟨16, 22⟩, 3⟩ := by decide +kernel
  obtain ⟨p, hp, d, m', hd, hmark⟩ := Program.exists_of_faultMark?_eq_some hrun
  obtain ⟨hproper, hordered, hlies⟩ := Program.located_of_ofSource hp
  exact ⟨p, hp, hproper, hordered, d, m', hd, hmark, hlies 3 _ d m' hd⟩

end BisayaPlus
