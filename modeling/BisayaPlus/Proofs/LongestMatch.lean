import BisayaPlus.Proofs.LongestLexeme
import BisayaPlus.Token.Source

/-!
The scan cuts a text into its longest tokens. From each position that it reaches, it passes over
white space or a comment, or else takes the longest token there, and it fails where there is none.
-/

namespace BisayaPlus.Token

open Lexeme Text

structure Longest (cs piece : List Char) (kind : Kind) (lexeme : String) (rest : List Char) :
    Prop where
  split : cs = piece ++ rest
  belongs : ∃ rule, Belongs rule piece kind lexeme rest
  longest : ∀ rule piece' kind' lexeme' rest', cs = piece' ++ rest' →
    Belongs rule piece' kind' lexeme' rest' → piece'.length ≤ piece.length

/-- The tokens between two positions of a text, by the rules of the scan. -/
inductive Scans : Position → List Char → List Token → Position → List Char → Prop
  | here {p : Position} {cs : List Char} : Scans p cs [] p cs
  | white {p q : Position} {c : Char} {rest ds : List Char} {ts : List Token}
      (hc : isWhiteSpace c = true) (h : Scans (p.next c) rest ts q ds) :
      Scans p (c :: rest) ts q ds
  | comment {p q : Position} {body rest ds : List Char} {ts : List Token} (hb : '\n' ∉ body)
      (hr : rest = [] ∨ rest.head? = some '\n')
      (h : Scans (p.after ('-' :: '-' :: body)) rest ts q ds) :
      Scans p ('-' :: '-' :: (body ++ rest)) ts q ds
  | token {p q : Position} {cs piece rest ds : List Char} {kind : Kind} {lexeme : String}
      {ts : List Token} (hs : ¬Skips cs) (hl : Longest cs piece kind lexeme rest)
      (h : Scans (p.after piece) rest ts q ds) :
      Scans p cs (⟨kind, lexeme, ⟨p.byte, (p.after piece).byte⟩, p.line⟩ :: ts) q ds

/-- There is more text, but nothing to pass over and no token. -/
def Stuck (cs : List Char) : Prop :=
  cs ≠ [] ∧ ¬Skips cs ∧
    ∀ rule piece kind lexeme rest, cs = piece ++ rest → ¬Belongs rule piece kind lexeme rest

theorem scan_nil (p : Position) : scan p [] = .ok [] := by
  rw [scan]

theorem scan_of_blank {p : Position} {c : Char} {rest : List Char} {more : Nat}
    (h : read c rest = ⟨.blank, more⟩) :
    scan p (c :: rest) = scan (p.after (c :: rest.take more)) (rest.drop more) := by
  rw [scan]
  simp only [h]

theorem scan_of_token {p : Position} {c : Char} {rest : List Char} {kind : Kind}
    {lexeme : String} {more : Nat} (h : read c rest = ⟨.token kind lexeme, more⟩) :
    scan p (c :: rest) =
      (scan (p.after (c :: rest.take more)) (rest.drop more)).map
        (⟨kind, lexeme, ⟨p.byte, (p.after (c :: rest.take more)).byte⟩, p.line⟩ :: ·) := by
  rw [scan]
  simp only [h]
  cases scan (p.after (c :: rest.take more)) (rest.drop more) <;> rfl

theorem scan_of_fault {p : Position} {c : Char} {rest : List Char} {fault : LexicalFault}
    {more : Nat} (h : read c rest = ⟨.fault fault, more⟩) :
    ∃ stop line, scan p (c :: rest) = .error ⟨.lexical fault, ⟨⟨p.byte, stop⟩, line⟩⟩ := by
  rw [scan]
  simp only [h]
  exact ⟨_, _, rfl⟩

theorem read_of_isWhiteSpace {c : Char} {rest : List Char} (h : isWhiteSpace c = true) :
    read c rest = ⟨.blank, 0⟩ := by
  rw [Lexeme.read, if_pos h]

/-- A comment is passed over up to the end of its line. -/
theorem read_comment {body rest : List Char} (hb : '\n' ∉ body)
    (hr : rest = [] ∨ rest.head? = some '\n') :
    read '-' ('-' :: (body ++ rest)) = ⟨.blank, body.length + 1⟩ := by
  have hbody : ∀ c ∈ '-' :: body, (c != '\n') = true := by
    intro c hc
    rcases List.mem_cons.1 hc with rfl | hc
    · decide
    · simpa using fun heq : c = '\n' => hb (heq ▸ hc)
  have hrest : ∀ c ws, rest = c :: ws → (c != '\n') = false := by
    rintro c ws rfl
    rcases hr with hr | hr
    · cases hr
    · simpa using hr
  have htake := List.takeWhile_append_of_head hbody hrest
  unfold Lexeme.read
  rw [if_neg (by decide), if_pos ⟨rfl, rfl⟩, ← List.cons_append, htake]
  rfl

theorem exists_cons_of_belongs {rule : Rule} {piece rest : List Char} {kind : Kind}
    {lexeme : String} (h : Belongs rule piece kind lexeme rest) : ∃ c ps, piece = c :: ps := by
  cases h with
  | whole hne => exact List.exists_cons_of_ne_nil hne
  | decimal hds => exact List.exists_cons_of_ne_nil (by simp)
  | text | openText | character | word => exact ⟨_, _, rfl⟩
  | @symbol s _ => cases s <;> exact ⟨_, _, rfl⟩

/-- The longest token is the one that is read. -/
theorem Longest.read_eq {c : Char} {ps rest : List Char} {kind : Kind} {lexeme : String}
    (hl : Longest (c :: (ps ++ rest)) (c :: ps) kind lexeme rest)
    (hs : ¬Skips (c :: (ps ++ rest))) :
    read c (ps ++ rest) = ⟨.token kind lexeme, ps.length⟩ := by
  have hread := isLongest_read hs
  obtain ⟨rule, hb⟩ := hl.belongs
  obtain rfl := hb.ruleOf_eq
  rcases hr : read c (ps ++ rest) with ⟨_ | ⟨kind', lexeme'⟩ | fault, more⟩
  · rw [hr] at hread
    exact hread.elim
  · rw [hr] at hread
    obtain ⟨⟨ps', rest', hsplit, rfl, hb'⟩, hlongest⟩ := hread
    obtain ⟨hle, huniq⟩ := hlongest ps kind lexeme rest rfl hb
    have hge := hl.longest _ (c :: ps') kind' lexeme' rest' (congrArg (c :: ·) hsplit) hb'
    have heq : ps.length = ps'.length := Nat.le_antisymm hle (Nat.le_of_succ_le_succ hge)
    obtain ⟨rfl, rfl⟩ := huniq heq
    rw [heq]
  · rw [hr] at hread
    exact absurd hb (hread ps kind lexeme rest rfl)

/-- A position that the scan reaches is scanned on from, with the tokens before it in front. -/
theorem Scans.scan_eq {p q : Position} {cs ds : List Char} {ts : List Token}
    (h : Scans p cs ts q ds) : scan p cs = (scan q ds).map (ts ++ ·) := by
  induction h with
  | @here p cs => cases scan p cs <;> rfl
  | @white p q c rest ds ts hc h ih =>
    rw [scan_of_blank (read_of_isWhiteSpace hc), ← ih]
    rfl
  | @comment p q body rest ds ts hb hr h ih =>
    rw [scan_of_blank (read_comment hb hr), ← ih]
    simp
  | @token p q cs piece rest ds kind lexeme ts hs hl h ih =>
    obtain ⟨rule, hb⟩ := hl.belongs
    obtain ⟨c, ps, rfl⟩ := exists_cons_of_belongs hb
    obtain rfl := hl.split
    rw [List.cons_append, scan_of_token (hl.read_eq hs), List.take_left, List.drop_left, ih]
    cases scan q ds <;> rfl

/-- The scan fails where it can neither pass anything over nor read a token. -/
theorem scan_of_stuck {p : Position} {cs : List Char} (h : Stuck cs) :
    ∃ fault stop line, scan p cs = .error ⟨.lexical fault, ⟨⟨p.byte, stop⟩, line⟩⟩ := by
  obtain ⟨hne, hs, hnone⟩ := h
  obtain ⟨c, rest, rfl⟩ := List.exists_cons_of_ne_nil hne
  have hread := isLongest_read hs
  rcases hr : read c rest with ⟨_ | ⟨kind, lexeme⟩ | fault, more⟩
  · rw [hr] at hread
    exact hread.elim
  · rw [hr] at hread
    obtain ⟨⟨ps, rest', rfl, -, hb⟩, -⟩ := hread
    exact absurd hb (hnone _ (c :: ps) kind lexeme rest' rfl)
  · exact ⟨fault, scan_of_fault hr⟩

/-- A token at the front of a text begins with its first character, which settles the rule. -/
theorem exists_of_split {rule : Rule} {c : Char} {piece rest rest' : List Char} {kind : Kind}
    {lexeme : String} (hb : Belongs rule piece kind lexeme rest') (h : c :: rest = piece ++ rest') :
    ∃ ps, piece = c :: ps ∧ rest = ps ++ rest' ∧ ruleOf c = rule := by
  obtain ⟨c', ps, rfl⟩ := exists_cons_of_belongs hb
  obtain ⟨rfl, htail⟩ := List.cons.inj h
  exact ⟨ps, rfl, htail, hb.ruleOf_eq⟩

/-- Where nothing is passed over, there is a longest token or the text is stuck. -/
theorem exists_longest_or_stuck {c : Char} {rest : List Char} (hs : ¬Skips (c :: rest)) :
    (∃ ps kind lexeme rest', rest = ps ++ rest' ∧
      Longest (c :: rest) (c :: ps) kind lexeme rest') ∨ Stuck (c :: rest) := by
  have hread := isLongest_read hs
  rcases hr : read c rest with ⟨_ | ⟨kind, lexeme⟩ | fault, more⟩
  · rw [hr] at hread
    exact hread.elim
  · rw [hr] at hread
    obtain ⟨⟨ps, rest', rfl, rfl, hb⟩, hlongest⟩ := hread
    refine .inl ⟨ps, kind, lexeme, rest', rfl, rfl, ⟨_, hb⟩, ?_⟩
    intro rule' piece' kind' lexeme' rest'' hsplit hb'
    obtain ⟨ps', rfl, htail, rfl⟩ := exists_of_split hb' hsplit
    exact Nat.succ_le_succ (hlongest ps' kind' lexeme' rest'' htail hb').1
  · rw [hr] at hread
    refine .inr ⟨List.cons_ne_nil c rest, hs, ?_⟩
    intro rule piece kind lexeme rest' hsplit hb
    obtain ⟨ps, rfl, htail, rfl⟩ := exists_of_split hb hsplit
    exact hread ps kind lexeme rest' htail hb

theorem exists_comment (cs : List Char) :
    ∃ body rest, cs = body ++ rest ∧ '\n' ∉ body ∧ (rest = [] ∨ rest.head? = some '\n') := by
  obtain ⟨body, rest, rfl, hbody, hrest⟩ := List.exists_takeWhile (· != '\n') cs
  refine ⟨body, rest, rfl, fun hmem => absurd (hbody '\n' hmem) (by decide), ?_⟩
  cases rest with
  | nil => exact .inl rfl
  | cons c ws => exact .inr (by simpa using hrest c ws rfl)

/-- The scan reaches the end of the text or a position where it is stuck. -/
theorem exists_scans (p : Position) (cs : List Char) :
    ∃ ts q ds, Scans p cs ts q ds ∧ (ds = [] ∨ Stuck ds) := by
  by_cases hne : cs = []
  · exact ⟨[], p, cs, .here, .inl hne⟩
  by_cases hs : Skips cs
  · rcases hs with ⟨c, rest, rfl, hc⟩ | ⟨tail, rfl⟩
    · obtain ⟨ts, q, ds, h, hend⟩ := exists_scans (p.next c) rest
      exact ⟨ts, q, ds, .white hc h, hend⟩
    · obtain ⟨body, rest, rfl, hb, hr⟩ := exists_comment tail
      obtain ⟨ts, q, ds, h, hend⟩ := exists_scans (p.after ('-' :: '-' :: body)) rest
      exact ⟨ts, q, ds, .comment hb hr h, hend⟩
  obtain ⟨c, rest, rfl⟩ := List.exists_cons_of_ne_nil hne
  rcases exists_longest_or_stuck hs with ⟨ps, kind, lexeme, rest', rfl, hl⟩ | hstuck
  · obtain ⟨ts, q, ds, h, hend⟩ := exists_scans (p.after (c :: ps)) rest'
    exact ⟨_, q, ds, .token hs hl h, hend⟩
  · exact ⟨[], p, c :: rest, .here, .inr hstuck⟩
termination_by cs.length
decreasing_by
  all_goals
    subst_vars
    simp only [List.length_cons, List.length_append]
    omega

/-- The scan succeeds exactly if its rules lead to the end of the text. -/
theorem scan_eq_ok_iff {p : Position} {cs : List Char} {tokens : List Token} :
    scan p cs = .ok tokens ↔ ∃ q, Scans p cs tokens q [] := by
  constructor
  · intro h
    obtain ⟨ts, q, ds, hscans, hend⟩ := exists_scans p cs
    rw [hscans.scan_eq] at h
    rcases hend with rfl | hstuck
    · rw [scan_nil] at h
      obtain rfl : ts ++ [] = tokens := Except.ok.inj h
      exact ⟨q, by simpa using hscans⟩
    · obtain ⟨fault, stop, line, hfault⟩ := scan_of_stuck (p := q) hstuck
      rw [hfault] at h
      cases h
  · rintro ⟨q, hscans⟩
    rw [hscans.scan_eq, scan_nil]
    exact congrArg Except.ok (List.append_nil tokens)

theorem ofSource_eq_error_iff {source : String} {d : Diagnostic} :
    ofSource source = .error d ↔ scan .start source.toList = .error d := by
  unfold ofSource
  cases scan .start source.toList <;> simp

/-- A point with no digit behind it is in no number, so the scan is stuck at it. -/
example : ofSource "1.\n" = .error ⟨.lexical (.unexpectedCharacter '.'), ⟨⟨1, 2⟩, 1⟩⟩ := by
  decide +kernel

end BisayaPlus.Token
