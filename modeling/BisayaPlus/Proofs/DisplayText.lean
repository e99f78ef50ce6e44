import BisayaPlus.Proofs.LooseEquality

/-!
The text of a value is read back. A finite number shows as digits, with at most a sign before them
and a point among them, so that there is no white space and no comma in its text. What is read from
the text of a value that has a reading as a number is that number, apart from the sign of a zero.
-/

namespace BisayaPlus

namespace Text

variable {before cs after : List Char}

theorem isWhiteSpace_eq_false_of_isDigit {c : Char} (h : Number.isDigit c = true) :
    isWhiteSpace c = false := by
  simp only [Number.isDigit, Bool.and_eq_true, decide_eq_true_eq] at h
  have hlow : 48 ≤ c.toNat := h.1
  have hhigh : c.toNat ≤ 57 := h.2
  simp [isWhiteSpace, whiteSpace, Intervals.contains]
  omega

/-- White space around a text that has none in it is what trimming takes away. -/
theorem trim_padded (hb : ∀ c ∈ before, isWhiteSpace c = true)
    (hcs : ∀ c ∈ cs, isWhiteSpace c = false) (ha : ∀ c ∈ after, isWhiteSpace c = true) :
    trim (before ++ cs ++ after) = cs := by
  unfold trim trimEnd
  rw [List.append_assoc, List.dropWhile_append_of_pos hb]
  cases cs with
  | nil =>
    rw [List.nil_append, List.dropWhile_eq_nil_iff.2 ha]
    rfl
  | cons c cs =>
    have hc := hcs c List.mem_cons_self
    have hafter : ∀ d ∈ after.reverse, isWhiteSpace d = true := fun d hd =>
      ha d (List.mem_reverse.1 hd)
    have hkept : (c :: cs).reverse.dropWhile isWhiteSpace = (c :: cs).reverse := by
      rw [List.dropWhile_eq_self_iff]
      intro hlength
      rw [hcs _ (List.mem_reverse.1 (List.getElem_mem hlength))]
      exact Bool.false_ne_true
    rw [List.cons_append, List.dropWhile_cons_of_neg (by simp [hc]), ← List.cons_append,
      List.reverse_append, List.dropWhile_append_of_pos hafter, hkept, List.reverse_reverse]

theorem trim_eq_self (hcs : ∀ c ∈ cs, isWhiteSpace c = false) : trim cs = cs := by
  have htrim := trim_padded (List.forall_mem_nil _) hcs (List.forall_mem_nil _)
  rwa [List.append_nil, List.nil_append] at htrim

end Text

namespace Number

variable {x : Number}

/-- The number that the text of a number shows, in which a zero has no sign. -/
def shown (x : Number) : Number :=
  if x.isZero then zero false else x

/-- Numbers are in the order of their places. -/
theorem order?_of_place? {y : Number} {p q : Int} (hp : x.place? = some p)
    (hq : y.place? = some q) : x.order? y = some (compare p q) := by
  rw [order?, hp, hq]

theorem equals_self (hx : x ≠ .nan) : x.equals x = true := by
  obtain ⟨p, hp⟩ := exists_place? hx
  exact equals_iff.2 ⟨p, hp, hp⟩

/-- A number equals the one that its text shows. -/
theorem equals_shown (hx : x ≠ .nan) : x.equals x.shown = true := by
  unfold shown
  by_cases hzero : x.isZero = true
  · rw [if_pos hzero]
    exact equals_iff.2 ⟨0, isZero_iff.1 hzero, rfl⟩
  · rw [if_neg hzero]
    exact equals_self hx

theorem isFinite_shown (hx : x.isFinite = true) : x.shown.isFinite = true := by
  unfold shown
  split
  · rfl
  · exact hx

theorem ne_nan_of_isFinite (hx : x.isFinite = true) : x ≠ .nan := by
  rintro rfl
  cases hx

/-- The text of a finite number is an optional sign, digits, and optionally a point and further
digits. -/
theorem exists_text_eq (hx : x.isFinite = true) : ∃ sign whole places,
    x.text = sign ++ pointed whole places ∧ (sign = [] ∨ sign = ['-']) ∧ whole ≠ [] ∧
      (∀ c ∈ whole, isDigit c = true) ∧ ∀ c ∈ places, isDigit c = true := by
  cases x with
  | finite negative units h =>
    obtain ⟨whole, places, hdigits, hne, hwhole, hplaces⟩ : ∃ whole places,
        (if units = 0 then ['0'] else (shortest units).text) = pointed whole places ∧
          whole ≠ [] ∧ (∀ c ∈ whole, isDigit c = true) ∧ ∀ c ∈ places, isDigit c = true := by
      by_cases hzero : units = 0
      · rw [if_pos hzero]
        exact ⟨['0'], [], rfl, List.cons_ne_nil _ _, List.forall_mem_singleton.2 rfl,
          List.forall_mem_nil _⟩
      · obtain ⟨whole, places, hspells⟩ := (shortest units).exists_spells
        rw [if_neg hzero]
        exact ⟨whole, places, hspells.text_eq, hspells.ne_nil, hspells.whole_digits,
          hspells.places_digits⟩
    rw [text, hdigits]
    cases negative with
    | false => exact ⟨[], whole, places, rfl, .inl rfl, hne, hwhole, hplaces⟩
    | true => exact ⟨['-'], whole, places, rfl, .inr rfl, hne, hwhole, hplaces⟩
  | infinite negative => cases hx
  | nan => cases hx

theorem text_ne_nil (hx : x.isFinite = true) : x.text ≠ [] := by
  obtain ⟨sign, whole, places, htext, -, hne, -⟩ := exists_text_eq hx
  rw [htext, pointed]
  split <;> simp [hne]

/-- The characters in the text of a finite number. -/
theorem isDigit_or_of_mem_text (hx : x.isFinite = true) {c : Char} (hc : c ∈ x.text) :
    isDigit c = true ∨ c = '.' ∨ c = '-' := by
  obtain ⟨sign, whole, places, htext, hsign, -, hwhole, hplaces⟩ := exists_text_eq hx
  rw [htext, List.mem_append] at hc
  rcases hc with hc | hc
  · rcases hsign with rfl | rfl
    · cases hc
    · exact .inr (.inr (List.mem_singleton.1 hc))
  · unfold pointed at hc
    split at hc
    · exact .inl (hwhole c hc)
    · rw [List.mem_append, List.mem_cons] at hc
      rcases hc with hc | rfl | hc
      · exact .inl (hwhole c hc)
      · exact .inr (.inl rfl)
      · exact .inl (hplaces c hc)

theorem isWhiteSpace_eq_false_of_mem_text {c : Char} (hc : c ∈ x.text) :
    Text.isWhiteSpace c = false := by
  cases x with
  | finite negative units h =>
    rcases isDigit_or_of_mem_text rfl hc with hdigit | rfl | rfl
    · exact Text.isWhiteSpace_eq_false_of_isDigit hdigit
    · decide
    · decide
  | infinite negative =>
    have hall : ∀ s, ((infinite s).text.all fun c => !Text.isWhiteSpace c) = true := by decide
    simpa using List.all_eq_true.1 (hall negative) c hc
  | nan =>
    have hall : (nan.text.all fun c => !Text.isWhiteSpace c) = true := by decide
    simpa using List.all_eq_true.1 hall c hc

end Number

namespace Value

variable {v : Value} {x : Number}

/-- The text of a value with a number is that of the number shown. -/
theorem display_number (x : Number) : (number x).display = String.ofList x.shown.text := by
  unfold Number.shown
  by_cases hzero : x.isZero = true
  · rw [if_pos hzero, display_of_isZero hzero]
    rfl
  · rw [if_neg hzero, display_of_not_isZero hzero]

/-- Of the characters only the digits can be read as numbers. -/
theorem toNumber_character (c : Char) : (character c).toNumber =
    if Number.isDigit c = true then .ok (.ofNat (Number.digitValue c))
    else .error ⟨.number, .character c⟩ := by
  unfold toNumber
  dsimp only
  cases Number.isDigit c <;> rfl

/-- A value with a reading as a number shows a numeral for the same number. -/
theorem exists_ofText?_display (h : v.toNumber = .ok x) (hx : x ≠ .nan) :
    ∃ y, Number.ofText? (Text.trim v.display.toList) = some y ∧ x.equals y = true := by
  cases v with
  | number n =>
    obtain rfl : n = x := Except.ok.inj h
    refine ⟨n.shown, ?_, Number.equals_shown hx⟩
    rw [display_number, String.toList_ofList,
      Text.trim_eq_self fun c hc => Number.isWhiteSpace_eq_false_of_mem_text hc,
      Number.ofText?_text]
  | text s =>
    refine ⟨x, ?_, Number.equals_self hx⟩
    unfold toNumber at h
    dsimp only at h
    split at h
    · rename_i y hy
      cases h
      exact (Option.filter_eq_some_iff.1 hy).1
    · cases h
  | character c =>
    refine ⟨x, ?_, Number.equals_self hx⟩
    rw [toNumber_character] at h
    split at h
    · rename_i hc
      obtain rfl := Except.ok.inj h
      have hlist : c.toString.toList = [c] := by simp
      have hdigit : ∀ d ∈ [c], Number.isDigit d = true := List.forall_mem_singleton.2 hc
      have hvalue : Number.digitsValue [c] = Number.digitValue c := by
        simp [Number.digitsValue]
      rw [display, hlist, Text.trim_eq_self fun d hd =>
        Text.isWhiteSpace_eq_false_of_isDigit (hdigit d hd),
        Number.ofText?_of_digits (List.cons_ne_nil c []) hdigit, hvalue]
    · cases h
  | boolean b => cases h

end Value

end BisayaPlus
