import BisayaPlus.Proofs.Passing.Statement
import BisayaPlus.Proofs.ProgramEnd

/-!
Reading by a cursor comes to an end and stays inside the tokens. The checked cursor has the result
of the cursor for every list whose last token ends the source, so none of its checks fails: it looks
at no position beyond the first end of the source and at none in front of the first token, and each
reader of a statement or of a part of one moves on before it returns.
-/

namespace BisayaPlus

namespace Cursor

variable {tokens : List Token} {pos : Nat}

/-- The body of a program passes all checks. -/
theorem passes_body (h : Inside tokens pos) (budget : Nat) :
    Passes tokens pos (body · budget) (NotBefore tokens pos) := by
  induction budget generalizing pos with
  | zero =>
    simp only [body]
    exact .spent
  | succ budget ih =>
    simp only [body]
    refine (passes_atBodyEnd h.within).bind fun b i hi => ?_
    subst hi
    cases b with
    | true => exact .pure ⟨h, Nat.le_refl _⟩
    | false =>
      refine (passes_statement h budget).bind ?_
      rintro first j ⟨hfirst, hj⟩
      refine (ih hfirst).bind ?_
      rintro others k ⟨hothers, hk⟩
      exact .pure ⟨hothers, by omega⟩

/-- The last keyword passes all checks, although the token behind it is looked at. -/
theorem passes_programEnd (h : Inside tokens pos) :
    Passes tokens pos programEnd fun _ _ => True := by
  refine (passes_consume _ _ h).bind ?_
  rintro close i ⟨hclose, _⟩
  refine (passes_atSourceEnd hclose.within).stay fun b _ => ?_
  cases b with
  | true => exact .pure trivial
  | false => exact (passes_peek hclose.within).stay fun _ _ => .pure trivial

theorem passes_program (h : Inside tokens pos) (budget : Nat) :
    Passes tokens pos (program · budget) fun _ _ => True := by
  refine (passes_consume _ _ h).bind ?_
  rintro start i ⟨hstart, _⟩
  refine (passes_body hstart budget).bind ?_
  rintro statements j ⟨hbody, _⟩
  exact (passes_programEnd hbody).bind fun _ _ _ => .pure trivial

end Cursor

namespace Program

open Cursor

/-- A list that ends with the end of the source is cut at the first token that ends the body. -/
theorem exists_append_endsBody (before : List Token) {stop : Token}
    (hstop : stop.kind = .sourceEnd) :
    ∃ inside last after, before ++ [stop] = inside ++ last :: after ∧
      (∀ t ∈ inside, endsBody t = false) ∧ endsBody last = true := by
  have hends : endsBody stop = true := by simp [endsBody, hstop]
  have hfound : ((before ++ [stop]).find? endsBody).isSome = true :=
    List.find?_isSome.2 ⟨stop, List.mem_append_right _ (List.mem_singleton_self stop), hends⟩
  obtain ⟨last, hlast⟩ := Option.isSome_iff_exists.1 hfound
  obtain ⟨hlast, inside, after, heq, hinside⟩ := List.find?_eq_some_iff_append.1 hlast
  exact ⟨inside, last, after, heq, fun t ht => by simpa using hinside t ht, hlast⟩

/-- Reading a list whose last token ends the source comes to a result, and no check of the cursor
fails on the way. -/
theorem byCheckedCursor_eq_some (before : List Token) {stop : Token}
    (hstop : stop.kind = .sourceEnd) :
    byCheckedCursor (before ++ [stop]) = some (ofTokens (before ++ [stop])) ∧
      byCursor (before ++ [stop]) = some (ofTokens (before ++ [stop])) := by
  obtain ⟨inside, last, after, heq, hinside, hlast⟩ := exists_append_endsBody before hstop
  have hplain : byCursor (before ++ [stop]) = some (ofTokens (before ++ [stop])) := by
    rw [heq]
    exact byCursor_eq_some hinside hlast
  have hstart : Inside (before ++ [stop]) 0 := {
    ended := ⟨before, stop, rfl, hstop⟩
    within := ⟨by simp, fun t ht => (nomatch ht)⟩ }
  refine ⟨?_, hplain⟩
  obtain ⟨r, hr, hmap⟩ := Option.map_eq_some_iff.1 hplain
  have hchecked := (passes_program hstart (Cursor.enough (before ++ [stop])) r hr).1
  rw [byCheckedCursor, ← hmap]
  exact congrArg (Option.map (Except.map Prod.fst)) hchecked

/-- The first keyword of a program, twice the end of the source, and a name between them. -/
theorem byCheckedCursor_eq_some_twoEnds :
    let tokens := [emptyStart, ⟨.sourceEnd, "", ⟨5, 5⟩, 1⟩, ⟨.identifier, "x", ⟨6, 7⟩, 2⟩] ++
      [⟨.sourceEnd, "", ⟨7, 7⟩, 2⟩]
    byCheckedCursor tokens = some (ofTokens tokens) ∧ byCursor tokens = some (ofTokens tokens) :=
  byCheckedCursor_eq_some _ rfl

/-- Without the end of the source the checked cursor would look behind the last token. -/
example : byCheckedCursor [emptyStart] = none := by
  rfl

end Program

end BisayaPlus
