import BisayaPlus.Proofs.MultipleNames
import BisayaPlus.Proofs.NumberText
import BisayaPlus.Proofs.Prelude
import Mathlib.Data.List.Forall2

/-!
Input statements. A statement that does not know one of its names reads nothing, and one that knows
them all takes exactly one line. The store gets values for all names or stays as it was: the names
are looked up before the line is read, so giving them their values cannot fail any more.
-/

namespace BisayaPlus

structure Text.Trims (cs piece : List Char) : Prop where
  around : ∃ before after, cs = before ++ piece ++ after ∧
    (∀ c ∈ before, isWhiteSpace c = true) ∧ ∀ c ∈ after, isWhiteSpace c = true
  first : ∀ c ∈ piece.head?, isWhiteSpace c = false
  last : ∀ c ∈ piece.getLast?, isWhiteSpace c = false

/-- The value of a piece of input: the number that its digits denote, if it is made of digits and
the number is finite, and a text in all other cases. -/
inductive Value.Reads (piece : List Char) : Value → Prop
  | number (hne : piece ≠ []) (hdigits : ∀ c ∈ piece, Number.isDigit c = true)
      (hfinite : (Number.ofNat (Number.digitsValue piece)).isFinite = true) :
      Reads piece (.number (.ofNat (Number.digitsValue piece)))
  | text (h : piece = [] ∨ (∃ c ∈ piece, Number.isDigit c = false) ∨
        (Number.ofNat (Number.digitsValue piece)).isFinite = false) :
      Reads piece (.text (String.ofList piece))

namespace Console

/-- The bytes of the input, of its first line with the line feed, and behind that line. The last
line may lack the line feed. -/
inductive FirstLine : List UInt8 → List UInt8 → List UInt8 → Prop
  | closed {body : List UInt8} (h : 10 ∉ body) (rest : List UInt8) :
      FirstLine (body ++ 10 :: rest) (body ++ [10]) rest
  | last {body : List UInt8} (h : 10 ∉ body) : FirstLine body body []

/-- A line of input and its pieces. The line is made of fields with commas between them and of the
line feeds and carriage returns at its end. The pieces are the fields without the white space around
them. -/
inductive Pieces : List Char → List (List Char) → Prop
  | mk {fields pieces : List (List Char)} {ending : List Char} (hne : fields ≠ [])
      (hfields : ∀ f ∈ fields, ',' ∉ f) (hending : ∀ c ∈ ending, c = '\r' ∨ c = '\n')
      (hlast : ∀ c ∈ ([','].intercalate fields).getLast?, c ≠ '\r' ∧ c ≠ '\n')
      (htrims : List.Forall₂ Text.Trims fields pieces) :
      Pieces ([','].intercalate fields ++ ending) pieces

end Console

/-- One store is another in which each target has the value of the piece at the target's last
position. -/
structure Store.Takes (s : Store) (targets : List String) (pieces : List (List Char)) (t : Store) :
    Prop where
  target : ∀ (i : Nat) x, targets[i]? = some x → (∀ j, i < j → targets[j]? ≠ some x) →
    ∃ piece v, pieces[i]? = some piece ∧ Value.Reads piece v ∧ t.get? x = some v
  other : ∀ x, x ∉ targets → t.get? x = s.get? x

section Texts

variable {cs : List Char}

theorem Text.trims_trim (cs : List Char) : Text.Trims cs (Text.trim cs) := by
  obtain ⟨after, heq, hafter, hlast⟩ :=
    List.exists_eq_dropWhile_reverse isWhiteSpace (cs.dropWhile isWhiteSpace)
  constructor
  · refine ⟨cs.takeWhile isWhiteSpace, after, ?_, fun c hc => List.mem_takeWhile_imp hc, hafter⟩
    rw [List.append_assoc]
    calc
      cs = cs.takeWhile isWhiteSpace ++ cs.dropWhile isWhiteSpace :=
        List.takeWhile_append_dropWhile.symm
      _ = _ := congrArg (cs.takeWhile isWhiteSpace ++ ·) heq
  · intro c hc
    have hhead := List.head?_dropWhile_not isWhiteSpace cs
    rw [heq, List.head?_append] at hhead
    unfold trim trimEnd at hc
    rw [Option.mem_def.1 hc] at hhead
    exact hhead
  · exact hlast

/-- A line of input is cut at its commas, and its pieces are trimmed. -/
theorem Console.pieces_pieces (line : String) : Pieces line.toList (pieces line) := by
  obtain ⟨ending, heq, hending, hlast⟩ :=
    List.exists_eq_dropWhile_reverse (fun c => c == '\r' || c == '\n') line.toList
  have hwhole : [','].intercalate ((withoutLineEnd line.toList).splitOn ',') =
      withoutLineEnd line.toList := List.intercalate_splitOn ','
  have htext : line.toList =
      [','].intercalate ((withoutLineEnd line.toList).splitOn ',') ++ ending := by
    rw [hwhole]
    exact heq
  rw [htext]
  refine .mk (List.splitOn_ne_nil _ _) (fun f hf => List.not_mem_of_mem_splitOn hf) (fun c hc => ?_)
    (fun c hc => ?_) ?_
  · simpa using hending c hc
  · rw [hwhole] at hc
    simpa using hlast c hc
  · rw [pieces, List.forall₂_map_right_iff, List.forall₂_same]
    exact fun f _ => Text.trims_trim f

end Texts

/-- Bytes are decoded as the text whose encoding they are. -/
theorem Text.decode?_eq_some_iff {bytes : List UInt8} {text : String} :
    decode? bytes = some text ↔ text.toUTF8.data.toList = bytes := by
  unfold decode? String.fromUTF8?
  constructor
  · intro h
    split at h
    · cases h
      rfl
    · cases h
  · rintro rfl
    exact dif_pos text.isValidUTF8

/-- A piece of input becomes a number if it is the digits of a finite one, and a text if not. -/
theorem Value.reads_ofPiece (piece : List Char) : Reads piece (ofPiece piece) := by
  unfold ofPiece Number.natural?
  by_cases hdigits : (!piece.isEmpty && piece.all Number.isDigit) = true
  · rw [if_pos hdigits]
    rw [Bool.and_eq_true, List.all_eq_true] at hdigits
    have hne : piece ≠ [] := by simpa using hdigits.1
    have hread := Number.ofText?_of_digits hne hdigits.2
    rw [Option.bind_some, finiteNumeral?, hread, Option.filter_some]
    cases hfinite : (Number.ofNat (Number.digitsValue piece)).isFinite with
    | true => exact .number hne hdigits.2 hfinite
    | false => exact .text (.inr (.inr hfinite))
  · rw [if_neg hdigits]
    refine .text ?_
    by_cases hne : piece = []
    · exact .inl hne
    · refine .inr (.inl ?_)
      simpa [hne] using hdigits

/-- The first line of the input is cut off behind its line feed. -/
theorem Console.firstLine_firstLine (bytes : List UInt8) :
    FirstLine bytes (firstLine bytes).1 (firstLine bytes).2 := by
  induction bytes with
  | nil => exact .last List.not_mem_nil
  | cons b bytes ih =>
    by_cases hb : b = 10
    · subst hb
      exact .closed List.not_mem_nil bytes
    · have hne : (10 : UInt8) ≠ b := fun h => hb h.symm
      rw [firstLine, if_neg hb]
      generalize (firstLine bytes).1 = line at ih
      generalize (firstLine bytes).2 = rest at ih
      cases ih with
      | @closed body h rest =>
        have hbody : 10 ∉ b :: body := List.not_mem_cons_of_ne_of_not_mem hne h
        exact .closed hbody rest
      | last h => exact .last (List.not_mem_cons_of_ne_of_not_mem hne h)

namespace Action

variable {targets : List String} {m : Machine}

theorem assignPieces_eq (targets : List String) (pieces : List (List Char)) (mark : Mark) :
    assignPieces targets pieces mark =
      assignEach ((targets.zip pieces).map fun b => (b.1, .ofPiece b.2)) mark := by
  unfold assignPieces assignEach
  rw [List.forM_eq_forM, List.forM_eq_forM, List.forM_map]

/-- The name that is looked for is the first one that is not declared. -/
theorem find?_undeclared (s : Store) (targets : List String) :
    ((∀ x ∈ targets, s.contains x = true) ∧ targets.find? (!s.contains ·) = none) ∨
    ∃ before x after, targets = before ++ x :: after ∧ (∀ y ∈ before, s.contains y = true) ∧
      s.contains x = false ∧ targets.find? (!s.contains ·) = some x := by
  cases hfind : targets.find? (!s.contains ·) with
  | none =>
    refine .inl ⟨fun x hx => ?_, rfl⟩
    simpa using List.find?_eq_none.1 hfind x hx
  | some x =>
    obtain ⟨hx, before, after, heq, hbefore⟩ := List.find?_eq_some_iff_append.1 hfind
    refine .inr ⟨before, x, after, heq, fun y hy => ?_, ?_, rfl⟩
    · simpa using hbefore y hy
    · simpa using hx

/-- A name among the pairs for the last time has the last target of that name. -/
theorem takes_of_written {s t : Store} {pieces : List (List Char)}
    (hlength : targets.length ≤ pieces.length)
    (h : s.Written ((targets.zip pieces).map fun b => (b.1, .ofPiece b.2)) t) :
    s.Takes targets pieces t := by
  have hnames : ((targets.zip pieces).map fun b => (b.1, Value.ofPiece b.2)).map Prod.fst =
      targets := by
    rw [List.map_map]
    exact List.map_fst_zip hlength
  generalize hbs : ((targets.zip pieces).map fun b => (b.1, Value.ofPiece b.2)) = bs at h hnames
  constructor
  · intro i x hx hlater
    obtain ⟨hi, rfl⟩ := List.getElem?_eq_some_iff.1 hx
    have hi' : i < pieces.length := Nat.lt_of_lt_of_le hi hlength
    have hbound : i < bs.length := by
      rw [← hnames, List.length_map] at hi
      exact hi
    have hget : bs[i] = (targets[i], .ofPiece pieces[i]) := by
      subst hbs
      rw [List.getElem_map, List.getElem_zip]
    have hsplit : bs = bs.take i ++ (targets[i], .ofPiece pieces[i]) :: bs.drop (i + 1) := by
      rw [← hget, List.getElem_cons_drop, List.take_append_drop]
    refine ⟨pieces[i], _, List.getElem?_eq_getElem hi', Value.reads_ofPiece _,
      h.last _ _ _ _ hsplit fun hmem => ?_⟩
    rw [List.map_drop, hnames] at hmem
    obtain ⟨k, hk⟩ := List.mem_iff_getElem?.1 hmem
    rw [List.getElem?_drop] at hk
    exact hlater (i + 1 + k) (by omega) hk
  · intro x hx
    exact h.other x (hnames.symm ▸ hx)

/-- All names being declared, each of them gets the value of its last piece. -/
theorem assignPieces_of_declared {pieces : List (List Char)}
    (hall : ∀ x ∈ targets, m.store.contains x = true) (hlength : targets.length ≤ pieces.length)
    (mark : Mark) :
    ∃ t, m.store.Takes targets pieces t ∧
      assignPieces targets pieces mark m = .ok () { m with store := t } := by
  rw [assignPieces_eq]
  rcases assignEach_outcome ((targets.zip pieces).map fun b => (b.1, .ofPiece b.2)) mark m with
    ⟨t, -, ht, hend⟩ | ⟨before, b, after, t, heq, -, hb, -⟩
  · exact ⟨t, takes_of_written hlength ht, hend⟩
  · have hmem : b ∈ (targets.zip pieces).map fun b => (b.1, Value.ofPiece b.2) :=
      heq ▸ List.mem_append_right _ List.mem_cons_self
    obtain ⟨c, hc, rfl⟩ := List.mem_map.1 hmem
    rw [hall c.1 (List.of_mem_zip hc).1] at hb
    cases hb

/-- What reading a line comes to. The line is used up in all cases. -/
theorem readLine_outcome (targets : List String) (mark : Mark) (m : Machine) :
    let line := (Console.firstLine m.console.input).1
    let m' := { m with console.input := (Console.firstLine m.console.input).2 }
    (m.console.input = [] →
      readLine targets mark m = .error (.fault ⟨.runtime (.endOfInput targets), mark⟩) m') ∧
    ((∀ text : String, text.toUTF8.data.toList ≠ line) →
      readLine targets mark m = .error (.fault ⟨.runtime .undecodableLine, mark⟩) m') ∧
    ∀ text : String, text.toUTF8.data.toList = line → m.console.input ≠ [] →
      readLine targets mark m = .ok text m' := by
  intro line m'
  have htake : takeLine m = .ok line m' := rfl
  rw [readLine_eq, bind_apply_of_ok htake]
  refine ⟨fun hnone => ?_, fun htext => ?_, fun text htext hinput => ?_⟩
  · have hline : line = [] := (Console.firstLine_eq_nil_iff _).2 hnone
    have hdecode : Text.decode? line = some "" := Text.decode?_eq_some_iff.2 hline.symm
    rw [hdecode]
    rfl
  · have hdecode : Text.decode? line = none :=
      Option.eq_none_iff_forall_ne_some.2 fun text h => htext text (Text.decode?_eq_some_iff.1 h)
    rw [hdecode]
    rfl
  · have hdecode : Text.decode? line = some text := Text.decode?_eq_some_iff.2 htext
    have hline : line ≠ [] := fun h => hinput ((Console.firstLine_eq_nil_iff _).1 h)
    have hne : text.isEmpty = false := by
      rw [Bool.eq_false_iff]
      intro hempty
      obtain rfl : text = "" := String.isEmpty_iff.1 hempty
      exact hline htext.symm
    rw [hdecode]
    dsimp only
    rw [hne]
    rfl

/-- An unknown target makes input fail before a line is read. -/
theorem readPieces_of_find?_eq_some {x : String} (mark : Mark)
    (h : targets.find? (!m.store.contains ·) = some x) :
    readPieces targets mark m = .error (.fault ⟨.naming (.undeclared x), mark⟩) m := by
  have hget : (get : Action Machine) m = .ok m m := rfl
  rw [readPieces, bind_apply_of_ok hget, h]
  rfl

/-- If all targets are known, a line is read, which must have a piece for each of them. -/
theorem readPieces_of_find?_eq_none (mark : Mark)
    (h : targets.find? (!m.store.contains ·) = none) :
    readPieces targets mark m = (readLine targets mark >>= fun text =>
      if (Console.pieces text).length < targets.length then
        fail (.runtime (.tooFewPieces targets (Console.pieces text).length)) mark
      else
        pure (Console.pieces text)) m := by
  have hget : (get : Action Machine) m = .ok m m := rfl
  rw [readPieces, bind_apply_of_ok hget, h]
  refine congrFun (congrArg (readLine targets mark >>= ·) (funext fun text => ?_)) m
  by_cases hfew : (Console.pieces text).length < targets.length
  · rw [if_pos hfew, if_pos hfew]
    rfl
  · rw [if_neg hfew, if_neg hfew]

/-- Once the pieces are read, the names have their values: none of them can be unknown. -/
theorem assignPieces_of_readPieces {pieces : List (List Char)} {mark : Mark} {m' : Machine}
    (h : readPieces targets mark m = .ok pieces m') :
    ∃ t, m.store.Takes targets pieces t ∧
      assignPieces targets pieces mark m' = .ok () { m' with store := t } := by
  rcases find?_undeclared m.store targets with ⟨hall, hfind⟩ | ⟨_, x, _, -, -, -, hfind⟩
  · rw [readPieces_of_find?_eq_none mark hfind] at h
    have hstore := congrArg Machine.store (machineAtEnd_readLine targets mark m)
    cases hread : readLine targets mark m with
    | error i n =>
      rw [bind_apply_of_error hread] at h
      cases h
    | ok text n =>
      rw [bind_apply_of_ok hread] at h
      rw [hread] at hstore
      by_cases hfew : (Console.pieces text).length < targets.length
      · rw [if_pos hfew] at h
        cases h
      · rw [if_neg hfew] at h
        cases h
        have hsame : m'.store = m.store := hstore
        rw [← hsame] at hall ⊢
        exact assignPieces_of_declared hall (Nat.le_of_not_lt hfew) mark
  · rw [readPieces_of_find?_eq_some mark hfind] at h
    cases h

end Action

namespace Stmt

/-- An input statement does all or nothing to the store. If it does not know a name, it does not
even read, and if it knows them all, it takes one line. When it comes to writing the values, it
cannot fail any more. -/
theorem exec_input_outcome (targets : List String) (mark : Mark) (budget : Nat) (m : Machine) :
    (¬(∀ x ∈ targets, m.store.contains x = true) → ∃ before x after,
      targets = before ++ x :: after ∧ (∀ y ∈ before, m.store.contains y = true) ∧
      m.store.contains x = false ∧
      (Stmt.input targets mark).exec budget m =
        .error (.fault ⟨.naming (.undeclared x), mark⟩) m) ∧
    ((∀ x ∈ targets, m.store.contains x = true) → ∃ line rest,
      Console.FirstLine m.console.input line rest ∧
      let m' := { m with console.input := rest }
      (m.console.input = [] → (Stmt.input targets mark).exec budget m =
        .error (.fault ⟨.runtime (.endOfInput targets), mark⟩) m') ∧
      ((∀ text : String, text.toUTF8.data.toList ≠ line) →
        (Stmt.input targets mark).exec budget m =
          .error (.fault ⟨.runtime .undecodableLine, mark⟩) m') ∧
      ∀ text : String, text.toUTF8.data.toList = line → m.console.input ≠ [] → ∃ pieces,
        Console.Pieces text.toList pieces ∧
        (pieces.length < targets.length → (Stmt.input targets mark).exec budget m =
          .error (.fault ⟨.runtime (.tooFewPieces targets pieces.length), mark⟩) m') ∧
        (targets.length ≤ pieces.length → ∃ t, m.store.Takes targets pieces t ∧
          (Stmt.input targets mark).exec budget m = .ok () { m' with store := t })) ∧
    (Stmt.input targets mark).exec budget m =
      (Action.readPieces targets mark >>= fun pieces =>
        Action.assignPieces targets pieces mark) m ∧
    ∀ pieces m', Action.readPieces targets mark m = .ok pieces m' →
      ∃ t, Action.assignPieces targets pieces mark m' = .ok () { m' with store := t } := by
  rw [exec, Action.input_eq]
  refine ⟨fun hnot => ?_, fun hall => ?_, rfl, fun pieces m' h => ?_⟩
  · rcases Action.find?_undeclared m.store targets with
      ⟨hall, -⟩ | ⟨before, x, after, heq, hbefore, hx, hfind⟩
    · exact (hnot hall).elim
    · exact ⟨before, x, after, heq, hbefore, hx,
        Action.bind_apply_of_error (Action.readPieces_of_find?_eq_some mark hfind)⟩
  · obtain ⟨hend, hundecodable, hline⟩ := Action.readLine_outcome targets mark m
    have hfind : targets.find? (!m.store.contains ·) = none := by
      rw [List.find?_eq_none]
      intro x hx
      simp [hall x hx]
    have hread := Action.readPieces_of_find?_eq_none mark hfind
    refine ⟨_, _, Console.firstLine_firstLine m.console.input, fun hnone => ?_, fun htext => ?_,
      fun text htext hinput => ?_⟩
    · rw [Action.bind_apply_of_error (hend hnone)] at hread
      exact Action.bind_apply_of_error hread
    · rw [Action.bind_apply_of_error (hundecodable htext)] at hread
      exact Action.bind_apply_of_error hread
    · rw [Action.bind_apply_of_ok (hline text htext hinput)] at hread
      refine ⟨Console.pieces text, Console.pieces_pieces text, fun hfew => ?_, fun henough => ?_⟩
      · rw [if_pos hfew] at hread
        exact Action.bind_apply_of_error hread
      · rw [if_neg (Nat.not_lt.2 henough)] at hread
        obtain ⟨t, ht, hassign⟩ := Action.assignPieces_of_readPieces hread
        exact ⟨t, ht, (Action.bind_apply_of_ok hread).trans hassign⟩
  · obtain ⟨t, -, hassign⟩ := Action.assignPieces_of_readPieces h
    exact ⟨t, hassign⟩

/-- A line of one byte, without a line feed, is enough for one name. -/
theorem exec_input_outcome_byte :
    let m : Machine := ⟨⟨[("x", .boolean false)], by decide⟩, .ofInput [49]⟩
    let mark : Mark := ⟨⟨0, 1⟩, 1⟩
    (Stmt.input ["x", "z", "y"] mark).exec 0 m =
      .error (.fault ⟨.naming (.undeclared "z"), mark⟩) m ∧
    ∃ t, (Stmt.input ["x"] mark).exec 0 m = .ok () ⟨t, .ofInput []⟩ ∧
      t.get? "x" ≠ m.store.get? "x" := by
  intro m mark
  constructor
  · obtain ⟨before, x, after, heq, hbefore, hx, hend⟩ :=
      (exec_input_outcome ["x", "z", "y"] mark 0 m).1 (by decide)
    match before, heq with
    | [], heq =>
      obtain ⟨rfl, -⟩ := List.cons.inj heq
      exact absurd hx (by decide)
    | [_], heq =>
      obtain ⟨-, hrest⟩ := List.cons.inj heq
      obtain ⟨rfl, -⟩ := List.cons.inj hrest
      exact hend
    | _ :: z :: before, heq =>
      obtain ⟨-, hrest⟩ := List.cons.inj heq
      obtain ⟨rfl, -⟩ := List.cons.inj hrest
      exact absurd (hbefore "z" (List.mem_cons_of_mem _ List.mem_cons_self)) (by decide)
  · obtain ⟨line, rest, hline, -, -, hread⟩ :=
      (exec_input_outcome ["x"] mark 0 m).2.1 (by decide)
    have hbytes : line = [49] ∧ rest = [] := by
      generalize hinput : m.console.input = input at hline
      cases hline with
      | @closed body h rest =>
        have hmem : (10 : UInt8) ∈ m.console.input :=
          hinput ▸ List.mem_append_right _ List.mem_cons_self
        exact absurd hmem (by decide)
      | last h => exact ⟨hinput.symm, rfl⟩
    obtain ⟨rfl, rfl⟩ := hbytes
    obtain ⟨pieces, hpieces, -, henough⟩ := hread "1" (by decide) (by decide)
    have hlength : 1 ≤ pieces.length := by
      generalize "1".toList = cs at hpieces
      cases hpieces with
      | mk hne _ _ _ htrims =>
        rw [← htrims.length_eq]
        exact List.length_pos_iff.2 hne
    obtain ⟨t, ht, hend⟩ := henough hlength
    obtain ⟨piece, v, -, hv, hget⟩ := ht.target 0 "x" rfl fun j hj hx => by
      rw [List.getElem?_cons] at hx
      simp [Nat.ne_of_gt hj] at hx
    refine ⟨t, hend, fun hsame => ?_⟩
    have hold : v = .boolean false := Option.some.inj (hget.symm.trans hsame)
    subst hold
    cases hv

end Stmt

end BisayaPlus
