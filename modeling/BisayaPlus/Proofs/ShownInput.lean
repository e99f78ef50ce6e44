import BisayaPlus.Proofs.DisplayText
import BisayaPlus.Proofs.InputStatement
import Mathlib.Data.List.Nodup

/-!
Input of what was shown. The texts of finite numbers and of booleans have neither commas nor white
space in them, so a line of such texts is cut back into them, whatever white space stands around its
commas. Only the text of a whole number that is not negative becomes a number again. All others stay
texts, but they are equal to the values that they show and are read as these.
-/

namespace BisayaPlus

inductive Value.Readable : Value → Prop
  | number {x : Number} (hx : x.isFinite = true) : Readable (.number x)
  | boolean (b : Bool) : Readable (.boolean b)

/-- A value that is as good as another one, in comparisons and where a number or a boolean is
wanted. -/
structure Value.Matches (v w : Value) : Prop where
  looselyEquals : v.looselyEquals w = true
  looselyEquals_symm : w.looselyEquals v = true
  toNumber : ∀ x, v = .number x → ∃ y, w.toNumber = .ok y ∧ x.equals y = true
  toBoolean : ∀ b, v = .boolean b → w.toBoolean = .ok b

def Text.Blank (cs : List Char) : Prop :=
  ∀ c ∈ cs, isWhiteSpace c = true ∧ c ≠ '\n'

namespace Console

/-- A field of a line that shows a value, with blanks around the text of the value. -/
inductive FieldOf (v : Value) : List Char → Prop
  | mk {before after : List Char} (hbefore : Text.Blank before) (hafter : Text.Blank after) :
      FieldOf v (before ++ v.display.toList ++ after)

/-- A line with commas between fields that show the values in their order. -/
inductive Shows (vs : List Value) : List Char → Prop
  | mk {fields : List (List Char)} (hfields : List.Forall₂ FieldOf vs fields) :
      Shows vs ([','].intercalate fields)

end Console

section Texts

variable {cs tail : List Char}

theorem Text.Blank.isWhiteSpace {c : Char} (h : Blank cs) (hc : c ∈ cs) : isWhiteSpace c = true :=
  (h c hc).1

theorem Text.blank_singleton {c : Char} (hspace : isWhiteSpace c = true) (hfeed : c ≠ '\n') :
    Blank [c] :=
  List.forall_mem_singleton.2 ⟨hspace, hfeed⟩

/-- White space at the end of a text is trimmed. -/
theorem Text.trim_append (h : ∀ c ∈ tail, isWhiteSpace c = true) : trim (cs ++ tail) = trim cs := by
  have hall : ∀ c ∈ tail.reverse, isWhiteSpace c = true := fun c hc => h c (List.mem_reverse.1 hc)
  unfold trim trimEnd
  rw [List.dropWhile_append]
  split
  · rename_i hempty
    rw [List.isEmpty_iff.1 hempty, List.dropWhile_eq_nil_iff.2 h]
  · rw [List.reverse_append, List.dropWhile_append_of_pos hall]

theorem map_trim_splitOn_append (cs : List Char) (hcomma : ',' ∉ tail)
    (hspace : ∀ c ∈ tail, Text.isWhiteSpace c = true) :
    ((cs ++ tail).splitOn ',').map Text.trim = (cs.splitOn ',').map Text.trim := by
  obtain ⟨fields, last, hcs, happend⟩ := List.exists_splitOn_append cs hcomma
  rw [hcs, happend, List.map_append, List.map_append, List.map_singleton, List.map_singleton,
    Text.trim_append hspace]

/-- The line end is white space of the last piece. -/
theorem Console.pieces_ofList (cs : List Char) :
    pieces (String.ofList cs) = (cs.splitOn ',').map Text.trim := by
  obtain ⟨ending, heq, hending, -⟩ :=
    List.exists_eq_dropWhile_reverse (fun c => c == '\r' || c == '\n') cs
  have hends : ∀ c ∈ ending, c = '\r' ∨ c = '\n' := fun c hc => by simpa using hending c hc
  have hcomma : ',' ∉ ending := by
    intro hmem
    rcases hends ',' hmem with h | h
    · exact absurd h (by decide)
    · exact absurd h (by decide)
  have hspace : ∀ c ∈ ending, Text.isWhiteSpace c = true := by
    intro c hc
    rcases hends c hc with rfl | rfl <;> decide
  have hsame := map_trim_splitOn_append (withoutLineEnd cs) hcomma hspace
  rw [pieces, String.toList_ofList, ← hsame]
  exact congrArg (fun ds => (List.splitOn ',' ds).map Text.trim) heq.symm

end Texts

namespace Value

variable {v w : Value}

theorem Readable.ne_nan (h : v.Readable) : v ≠ .number .nan := by
  rintro rfl
  cases h with
  | number hx => cases hx

theorem Readable.display_ne_nil (h : v.Readable) : v.display.toList ≠ [] := by
  cases h with
  | @number x hx =>
    rw [display_number, String.toList_ofList]
    exact Number.text_ne_nil (Number.isFinite_shown hx)
  | boolean b => cases b <;> decide

/-- No value that can be read back has a comma or white space in its text. -/
theorem Readable.of_mem_display (h : v.Readable) {c : Char} (hc : c ∈ v.display.toList) :
    Text.isWhiteSpace c = false ∧ c ≠ ',' := by
  cases h with
  | @number x hx =>
    rw [display_number, String.toList_ofList] at hc
    refine ⟨Number.isWhiteSpace_eq_false_of_mem_text hc, ?_⟩
    rintro rfl
    rcases Number.isDigit_or_of_mem_text (Number.isFinite_shown hx) hc with hdigit | heq | heq
    · exact absurd hdigit (by decide)
    · exact absurd heq (by decide)
    · exact absurd heq (by decide)
  | boolean b =>
    have hall : ∀ b, ((Value.boolean b).display.toList.all fun c =>
        !Text.isWhiteSpace c && c != ',') = true := by decide
    simpa using List.all_eq_true.1 (hall b) c hc

/-- What is read from the text of a number is that number, without the sign of a zero, or the
text. -/
theorem eq_of_reads_number {x : Number} (h : Reads (number x).display.toList w) :
    w = .number x.shown ∨ w = .text (number x).display := by
  have hshown : Number.ofText? (number x).display.toList = some x.shown := by
    rw [display_number, String.toList_ofList, Number.ofText?_text]
  cases h with
  | number hne hdigits hfinite =>
    left
    rw [Number.ofText?_of_digits hne hdigits] at hshown
    rw [Option.some.inj hshown]
  | text h =>
    right
    rw [String.ofList_toList]

theorem toNumber_text {s : String} {x : Number} (hx : x.isFinite = true)
    (h : Number.ofText? (Text.trim s.toList) = some x) : (text s).toNumber = .ok x := by
  unfold toNumber
  dsimp only
  rw [finiteNumeral?, h, Option.filter_some, hx]
  rfl

theorem matches_of_reads_number {x : Number} (hx : x.isFinite = true)
    (h : Reads (number x).display.toList w) : (number x).Matches w := by
  have hnan : x ≠ .nan := Number.ne_nan_of_isFinite hx
  have hfinite : x.shown.isFinite = true := Number.isFinite_shown hx
  have hequal : x.equals x.shown = true := Number.equals_shown hnan
  obtain ⟨hdisplay, hw, hread⟩ : (number x).display = w.display ∧ w ≠ .number .nan ∧
      w.toNumber = .ok x.shown := by
    rcases eq_of_reads_number h with rfl | rfl
    · refine ⟨(equals_iff_display_eq hnan).1 hequal, fun heq => ?_, rfl⟩
      exact Number.ne_nan_of_isFinite hfinite (number.inj heq)
    · refine ⟨rfl, nofun, toNumber_text hfinite ?_⟩
      rw [display_number, String.toList_ofList,
        Text.trim_eq_self fun c hc => Number.isWhiteSpace_eq_false_of_mem_text hc,
        Number.ofText?_text]
  exact {
    looselyEquals := (looselyEquals_iff_display_eq (Readable.number hx).ne_nan).2 hdisplay
    looselyEquals_symm := (looselyEquals_iff_display_eq hw).2 hdisplay.symm
    toNumber := fun y hy => ⟨x.shown, hread, number.inj hy ▸ hequal⟩
    toBoolean := nofun }

theorem matches_of_reads_boolean {b : Bool} (h : Reads (boolean b).display.toList w) :
    (boolean b).Matches w := by
  have hletter : ∀ b, (boolean b).display.toList.all Number.isDigit = false := by decide
  obtain rfl : w = .text (boolean b).display := by
    cases h with
    | number hne hdigits hfinite =>
      exact absurd (List.all_eq_true.2 hdigits) (Bool.eq_false_iff.1 (hletter b))
    | text h => rw [String.ofList_toList]
  exact {
    looselyEquals := beq_self_eq_true (boolean b).display
    looselyEquals_symm := beq_self_eq_true (boolean b).display
    toNumber := fun x hx => by cases hx
    toBoolean := fun c hc => by
      obtain rfl := boolean.inj hc
      cases b <;> decide }

/-- What is read back from the text of a value matches the value. -/
theorem Readable.matches_of_reads (hv : v.Readable) (h : Reads v.display.toList w) :
    v.Matches w := by
  cases hv with
  | number hx => exact matches_of_reads_number hx h
  | boolean b => exact matches_of_reads_boolean h

end Value

namespace Console

variable {vs : List Value} {v : Value} {line cs : List Char}

/-- A field trimmed is the text of its value. -/
theorem FieldOf.trim_eq (h : FieldOf v cs) (hv : v.Readable) :
    Text.trim cs = v.display.toList := by
  cases h with
  | mk hbefore hafter =>
    exact Text.trim_padded (fun c hc => hbefore.isWhiteSpace hc)
      (fun c hc => (hv.of_mem_display hc).1) fun c hc => hafter.isWhiteSpace hc

theorem FieldOf.blank_or_mem_display (h : FieldOf v cs) {c : Char} (hc : c ∈ cs) :
    Text.isWhiteSpace c = true ∧ c ≠ '\n' ∨ c ∈ v.display.toList := by
  cases h with
  | mk hbefore hafter =>
    rw [List.mem_append, List.mem_append] at hc
    rcases hc with (hc | hc) | hc
    · exact .inl (hbefore c hc)
    · exact .inr hc
    · exact .inl (hafter c hc)

/-- A comma or a line feed is neither a blank nor in the text of a value. -/
theorem FieldOf.not_mem (h : FieldOf v cs) (hv : v.Readable) : ',' ∉ cs ∧ '\n' ∉ cs := by
  constructor
  · intro hc
    rcases h.blank_or_mem_display hc with ⟨hspace, -⟩ | hshown
    · exact absurd hspace (by decide)
    · exact (hv.of_mem_display hshown).2 rfl
  · intro hc
    rcases h.blank_or_mem_display hc with ⟨-, hfeed⟩ | hshown
    · exact hfeed rfl
    · exact absurd (hv.of_mem_display hshown).1 (by decide)

/-- Trimmed fields are the texts of their values, and no comma or line feed is within one. -/
theorem fields_of_forall₂ {fields : List (List Char)} (h : List.Forall₂ FieldOf vs fields)
    (hvs : ∀ v ∈ vs, v.Readable) :
    fields.map Text.trim = vs.map (·.display.toList) ∧ ∀ f ∈ fields, ',' ∉ f ∧ '\n' ∉ f := by
  induction h with
  | nil => exact ⟨rfl, List.forall_mem_nil _⟩
  | @cons v f vs fields hf hfields ih =>
    have hv : v.Readable := hvs v List.mem_cons_self
    obtain ⟨htrim, hfree⟩ := ih fun w hw => hvs w (List.mem_cons_of_mem _ hw)
    refine ⟨?_, List.forall_mem_cons.2 ⟨hf.not_mem hv, hfree⟩⟩
    rw [List.map_cons, List.map_cons, hf.trim_eq hv, htrim]

/-- No line feed is in a line that shows values. -/
theorem Shows.lineFeed_not_mem (h : Shows vs line) (hvs : ∀ v ∈ vs, v.Readable) :
    '\n' ∉ line := by
  cases h with
  | mk hfields =>
    obtain ⟨-, hfree⟩ := fields_of_forall₂ hfields hvs
    exact List.not_mem_intercalate (by decide) fun f hf => (hfree f hf).2

/-- A line that shows values is cut back into their texts. -/
theorem Shows.pieces_eq (h : Shows vs line) (hne : vs ≠ []) (hvs : ∀ v ∈ vs, v.Readable)
    {ending : List Char} (hending : ending = ['\n'] ∨ ending = []) :
    pieces (String.ofList (line ++ ending)) = vs.map (·.display.toList) := by
  have hcomma : ',' ∉ ending := by rcases hending with rfl | rfl <;> decide
  have hspace : ∀ c ∈ ending, Text.isWhiteSpace c = true := by
    rcases hending with rfl | rfl
    · exact List.forall_mem_singleton.2 rfl
    · exact List.forall_mem_nil _
  rw [pieces_ofList, map_trim_splitOn_append line hcomma hspace]
  cases h with
  | @mk fields hfields =>
    obtain ⟨htrim, hfree⟩ := fields_of_forall₂ hfields hvs
    have hfields_ne : fields ≠ [] := by
      rintro rfl
      exact hne (List.forall₂_nil_right_iff.1 hfields)
    rw [List.splitOn_intercalate ',' (fun f hf => (hfree f hf).1) hfields_ne, htrim]

end Console

section Bytes

variable {cs ending : List Char} {body rest : List UInt8}

theorem Console.firstLine_of_not_mem (h : 10 ∉ body) : firstLine body = (body, []) := by
  induction body with
  | nil => rfl
  | cons b body ih =>
    rw [List.mem_cons, not_or] at h
    rw [firstLine, if_neg (Ne.symm h.1), ih h.2]

theorem Console.firstLine_append_lineFeed (h : 10 ∉ body) (rest : List UInt8) :
    firstLine (body ++ 10 :: rest) = (body ++ [10], rest) := by
  induction body with
  | nil => rfl
  | cons b body ih =>
    rw [List.mem_cons, not_or] at h
    rw [List.cons_append, firstLine, if_neg (Ne.symm h.1), ih h.2, List.cons_append]

/-- The first line of the input is the line of which the bytes stand there. -/
theorem Console.firstLine_toUTF8 (hcs : '\n' ∉ cs)
    (hending : ending = ['\n'] ∨ ending = [] ∧ rest = []) :
    firstLine ((String.ofList (cs ++ ending)).toUTF8.data.toList ++ rest) =
      ((String.ofList (cs ++ ending)).toUTF8.data.toList, rest) := by
  have hbody : 10 ∉ cs.flatMap String.utf8EncodeChar := by
    intro hmem
    obtain ⟨c, hc, hbyte⟩ := List.mem_flatMap.1 hmem
    exact hcs (String.eq_lineFeed_of_mem hbyte ▸ hc)
  have hfeed : ['\n'].flatMap String.utf8EncodeChar = [10] := by decide
  rw [String.toUTF8_ofList, List.flatMap_append]
  rcases hending with rfl | ⟨rfl, rfl⟩
  · rw [hfeed, List.append_assoc, List.singleton_append, firstLine_append_lineFeed hbody]
  · rw [List.flatMap_nil, List.append_nil, List.append_nil, firstLine_of_not_mem hbody]

/-- What is read from a line that shows values is not empty. -/
theorem Console.Shows.input_ne_nil {vs : List Value} (h : Shows vs cs) (hne : vs ≠ [])
    (hvs : ∀ v ∈ vs, v.Readable) (hending : ending = ['\n'] ∨ ending = [])
    (hbody : body = (String.ofList (cs ++ ending)).toUTF8.data.toList ++ rest) : body ≠ [] := by
  rintro rfl
  obtain ⟨hbytes, -⟩ := List.append_eq_nil_iff.1 hbody.symm
  have htext : String.ofList (cs ++ ending) = "" := by
    have hdecode := Text.decode?_eq_some_iff.2 hbytes
    exact Option.some.inj (hdecode.symm.trans (Text.decode?_eq_some_iff.2 rfl))
  -- The empty text has one empty piece, but the first value shows a text that is not empty.
  have hpieces := h.pieces_eq hne hvs hending
  have hempty : pieces "" = [[]] := by decide
  rw [htext, hempty] at hpieces
  obtain ⟨v, others, rfl⟩ := List.exists_cons_of_ne_nil hne
  exact (hvs v List.mem_cons_self).display_ne_nil (List.cons.inj hpieces).1.symm

end Bytes

/-- A line that has a piece for each of the known names is read as its pieces. -/
theorem Action.readPieces_of_line {targets : List String} {m : Machine} {text : String}
    {rest : List UInt8} (hdeclared : ∀ x ∈ targets, m.store.contains x = true)
    (hfirst : Console.firstLine m.console.input = (text.toUTF8.data.toList, rest))
    (hinput : m.console.input ≠ []) (henough : targets.length ≤ (Console.pieces text).length)
    (mark : Mark) :
    readPieces targets mark m =
      .ok (Console.pieces text) { m with console.input := rest } := by
  have hfind : targets.find? (!m.store.contains ·) = none := by
    rw [List.find?_eq_none]
    intro x hx
    simp [hdeclared x hx]
  obtain ⟨-, -, hread⟩ := readLine_outcome targets mark m
  rw [hfirst] at hread
  rw [readPieces_of_find?_eq_none mark hfind, bind_apply_of_ok (hread text rfl hinput),
    if_neg (Nat.not_lt.2 henough)]
  rfl

namespace Stmt

variable {vs : List Value} {targets : List String} {line ending : List Char} {m : Machine}
  {rest : List UInt8}

/-- A line that shows finite numbers and booleans gives each target a value that matches the one
shown in its place. White space around the commas, a carriage return and a missing line feed make no
difference. -/
theorem exec_input_of_shown (hne : vs ≠ []) (hvs : ∀ v ∈ vs, v.Readable)
    (hlength : targets.length = vs.length) (hdistinct : targets.Nodup)
    (hdeclared : ∀ x ∈ targets, m.store.contains x = true) (hline : Console.Shows vs line)
    (hending : ending = ['\n'] ∨ ending = [] ∧ rest = [])
    (hinput : m.console.input = (String.ofList (line ++ ending)).toUTF8.data.toList ++ rest)
    (mark : Mark) (budget : Nat) :
    ∃ t, (Stmt.input targets mark).exec budget m =
        .ok () ⟨t, { m.console with input := rest }⟩ ∧
      List.Forall₂ (fun x v => ∃ w, t.get? x = some w ∧ v.Matches w) targets vs ∧
      ∀ x, x ∉ targets → t.get? x = m.store.get? x := by
  have hclosed : ending = ['\n'] ∨ ending = [] := hending.imp_right And.left
  have hpieces := hline.pieces_eq hne hvs hclosed
  have hfirst := Console.firstLine_toUTF8 (hline.lineFeed_not_mem hvs) hending
  rw [← hinput] at hfirst
  have hinput_ne : m.console.input ≠ [] := hline.input_ne_nil hne hvs hclosed hinput
  have henough : targets.length ≤ (Console.pieces (String.ofList (line ++ ending))).length := by
    rw [hpieces, List.length_map, hlength]
  have hread := Action.readPieces_of_line hdeclared hfirst hinput_ne henough mark
  obtain ⟨t, ht, hassign⟩ := Action.assignPieces_of_readPieces hread
  rw [hpieces] at ht
  refine ⟨t, ?_, ?_, ht.other⟩
  · rw [exec, Action.input_eq, Action.bind_apply_of_ok hread, hassign]
  · rw [List.forall₂_iff_get]
    refine ⟨hlength, fun i hi hi' => ?_⟩
    have hlater : ∀ j, i < j → targets[j]? ≠ some targets[i] := by
      intro j hj heq
      obtain ⟨hj', hsame⟩ := List.getElem?_eq_some_iff.1 heq
      exact Nat.ne_of_gt hj ((List.Nodup.getElem_inj_iff hdistinct).1 hsame)
    obtain ⟨piece, w, hpiece, hw, hget⟩ :=
      ht.target i targets[i] (List.getElem?_eq_getElem hi) hlater
    obtain rfl : vs[i].display.toList = piece := by
      rw [List.getElem?_map, List.getElem?_eq_getElem hi'] at hpiece
      exact Option.some.inj hpiece
    exact ⟨w, hget, (hvs vs[i] (List.getElem_mem hi')).matches_of_reads hw⟩

/-- A half below zero and a boolean are read into two names, although there are blanks on both sides
of the comma and a carriage return at the end of the line. -/
theorem exec_input_of_shown_padded :
    let half : Number := Number.ofRatio true Number.one 2
    let m : Machine := ⟨⟨[("y", .boolean false), ("x", .boolean false)], by decide⟩,
      .ofInput "-0.5 ,\tOO\r\n7".toUTF8.data.toList⟩
    ∃ t v w, (Stmt.input ["x", "y"] ⟨⟨0, 1⟩, 1⟩).exec 0 m = .ok () ⟨t, .ofInput [55]⟩ ∧
      t.get? "x" = some v ∧ (Value.number half).Matches v ∧
      t.get? "y" = some w ∧ (Value.boolean true).Matches w := by
  intro half m
  have hhalf : (Value.number half).display = "-0.5" := by decide +kernel
  have hfinite : half.isFinite = true := by decide +kernel
  have hx : Console.FieldOf (.number half) ['-', '0', '.', '5', ' '] := by
    have hfield := @Console.FieldOf.mk (.number half) [] [' '] (List.forall_mem_nil _)
      (Text.blank_singleton (by decide) (by decide))
    rwa [hhalf] at hfield
  have hy : Console.FieldOf (.boolean true) ['\t', 'O', 'O', '\r'] :=
    @Console.FieldOf.mk (.boolean true) ['\t'] ['\r']
      (Text.blank_singleton (by decide) (by decide)) (Text.blank_singleton (by decide) (by decide))
  have hline := Console.Shows.mk (.cons hx (.cons hy .nil))
  have hvs : ∀ v ∈ [Value.number half, .boolean true], v.Readable :=
    List.forall_mem_cons.2 ⟨.number hfinite, List.forall_mem_singleton.2 (.boolean true)⟩
  have hdistinct : ["x", "y"].Nodup := by decide
  have hdeclared : ∀ x ∈ ["x", "y"], m.store.contains x = true := by decide
  have hinput : m.console.input = (String.ofList ([','].intercalate
      [['-', '0', '.', '5', ' '], ['\t', 'O', 'O', '\r']] ++ ['\n'])).toUTF8.data.toList ++
        [55] := by
    decide
  obtain ⟨t, hend, hread, -⟩ := exec_input_of_shown (List.cons_ne_nil _ _) hvs rfl hdistinct
    hdeclared hline (.inl rfl) hinput ⟨⟨0, 1⟩, 1⟩ 0
  cases hread with
  | cons hfirst hothers =>
    cases hothers with
    | cons hsecond _ =>
      obtain ⟨v, hv, hmatch⟩ := hfirst
      obtain ⟨w, hw, hmatch'⟩ := hsecond
      exact ⟨t, v, w, hend, hv, hmatch, hw, hmatch'⟩

end Stmt

end BisayaPlus
