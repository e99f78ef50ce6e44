import BisayaPlus.Number.Shortest
import BisayaPlus.Proofs.Rounding
import Mathlib.Data.List.TakeWhile
import Mathlib.Tactic.Ring

/-!
A number is read back from its text. The text is a sign before some digits, with at most a point and
further digits behind them. Reading takes these digits as a multiple of a power of ten, which is the
decimal that was printed, and a decimal is printed only if it reads back.
-/

namespace BisayaPlus.Number

section Decimals

variable {units : Nat}

/-- A decimal is a ratio of units, the same under both signs. -/
theorem exists_ofDecimal_eq (digits : Nat) (exponent : Int) :
    ∃ num den, (digits = 0 → num = 0) ∧
      ∀ negative, ofDecimal negative digits exponent = ofRatio negative num den := by
  refine ⟨digits * Nat.pow 10 exponent.toNat * one, Nat.pow 10 (-exponent).toNat, ?_, ?_⟩
  · rintro rfl
    rw [Nat.zero_mul, Nat.zero_mul]
  · intro negative
    rfl

theorem ofDecimal_zero (negative : Bool) (exponent : Int) :
    ofDecimal negative 0 exponent = zero negative := by
  obtain ⟨num, den, hzero, hread⟩ := exists_ofDecimal_eq 0 exponent
  obtain rfl : num = 0 := hzero rfl
  rw [hread negative]
  exact ofRatio_eq_finite_iff.2 (roundUnits_zero den)

/-- All digits of some units, if there are `2 ^ k` of them in one. -/
theorem ofDecimal_mul_pow (h : Representable units) {k : Nat} (hone : one = Nat.pow 2 k)
    (negative : Bool) :
    ofDecimal negative (units * Nat.pow 5 k) (-k) = .finite negative units h := by
  have hnum : units * Nat.pow 5 k * Nat.pow 10 (-(k : Int)).toNat * one =
      units * Nat.pow 10 k := by
    have hten : 10 ^ k = 5 ^ k * 2 ^ k := by
      rw [← Nat.mul_pow]
    rw [hone]
    simp only [Int.toNat_neg_natCast, Nat.pow_eq, Nat.pow_zero, Nat.mul_one, hten, Nat.mul_assoc]
  have hden : Nat.pow 10 (- -(k : Int)).toNat = Nat.pow 10 k := by
    rw [Int.neg_neg, Int.toNat_natCast]
  rw [ofDecimal, hnum, hden, ofRatio_eq_finite_iff]
  exact roundUnits_mul h (Nat.pow_pos (by omega))

end Decimals

section Shortest

variable {d : Decimal} {units : Nat}

/-- A decimal denotes some units if it is rounded to them. -/
theorem Decimal.denotes_iff (h : Representable units) :
    d.denotes units = true ↔
      ∃ negative, ofDecimal false d.digits d.exponent = .finite negative units h := by
  -- The definition is opened before it is applied, since a match on a rounded decimal would be
  -- evaluated when it is compared.
  generalize hf : Decimal.denotes = f
  delta Decimal.denotes at hf
  subst hf
  dsimp only
  generalize ofDecimal false d.digits d.exponent = n
  cases n with
  | finite negative u hu => simp
  | infinite negative => simp
  | nan => simp

/-- A decimal that denotes a positive number reads back to it, and under the other sign to the
negative one. -/
theorem Decimal.ofDecimal_of_denotes (h : Representable units) (hd : d.denotes units = true)
    (negative : Bool) : ofDecimal negative d.digits d.exponent = .finite negative units h := by
  obtain ⟨sign, hsign⟩ := (Decimal.denotes_iff h).1 hd
  obtain ⟨num, den, -, hread⟩ := exists_ofDecimal_eq d.digits d.exponent
  rw [hread false] at hsign
  obtain rfl : sign = false := by
    unfold ofRatio at hsign
    split at hsign <;> cases hsign
    rfl
  rw [hread negative]
  exact ofRatio_eq_finite_iff.2 (ofRatio_eq_finite_iff.1 hsign)

/-- The exact expansion of a number denotes the number. -/
theorem denotes_expansion (h : Representable units) : (expansion units).denotes units = true := by
  have hone : one = Nat.pow 2 1074 := by delta one; exact Eq.refl _
  have hread := ofDecimal_mul_pow h hone false
  rw [Decimal.denotes_iff h, expansion]
  exact ⟨false, hread⟩

/-- What is printed of a positive number denotes it. -/
theorem denotes_shortest (h : Representable units) : (shortest units).denotes units = true := by
  unfold shortest
  cases hfind : (List.range 17).findSome? fun i => nearest? units (i + 1) with
  | none =>
    rw [Option.getD_none]
    exact denotes_expansion h
  | some d =>
    obtain ⟨i, -, hi⟩ := List.exists_of_findSome?_eq_some hfind
    have hd := List.find?_some hi
    rw [Option.getD_some]
    exact hd

end Shortest

section Digits

variable {c : Char} {cs whole places : List Char}

theorem isDigit_of_mem_toDigits {n : Nat} (h : c ∈ Nat.toDigits 10 n) : isDigit c = true := by
  have hc : c.isDigit = true := Nat.isDigit_of_mem_toDigits (by omega) (by omega) h
  simpa [Char.isDigit, isDigit, Char.le_def] using hc

theorem isDigit_of_mem_zeros {k : Nat} (h : c ∈ List.replicate k '0') : isDigit c = true := by
  have hzero : isDigit '0' = true := by decide
  rw [List.eq_of_mem_replicate h, hzero]

theorem digitsValue_append (cs ds : List Char) :
    digitsValue (cs ++ ds) = 10 ^ ds.length * digitsValue cs + digitsValue ds := by
  have happend : digitsValue (cs ++ ds) = Nat.ofDigitChars 10 ds (digitsValue cs) :=
    Nat.ofDigitChars_append 0
  rw [happend, Nat.ofDigitChars_eq_ofDigitChars_zero]
  rfl

/-- The digits of a natural number are read as this number. -/
theorem digitsValue_toDigits (n : Nat) : digitsValue (Nat.toDigits 10 n) = n :=
  Nat.ofDigitChars_toDigits (by omega) (by omega)

theorem digitsValue_zeros (k : Nat) : digitsValue (List.replicate k '0') = 0 := by
  have hzeros : digitsValue (List.replicate k '0') = 10 ^ k * 0 := Nat.ofDigitChars_replicate_zero
  rw [hzeros, Nat.mul_zero]

theorem toLower_of_isDigit (h : isDigit c = true) : c.toLower = c := by
  have hle : c.toNat ≤ 57 := toNat_le_of_isDigit h
  have hnot : ¬(c.val ≥ 'A'.val ∧ c.val ≤ 'Z'.val) := by
    intro hupper
    have hge : 65 ≤ c.toNat := hupper.1
    omega
  exact dif_neg hnot

def pointed (whole places : List Char) : List Char :=
  if places = [] then whole else whole ++ '.' :: places

/-- Digits with a point are read as the decimal with these places. -/
theorem decimal?_pointed (negative : Bool) (hne : whole ≠ [])
    (hwhole : ∀ c ∈ whole, isDigit c = true) (hplaces : ∀ c ∈ places, isDigit c = true) :
    decimal? negative (pointed whole places) =
      some (ofDigits negative (whole ++ places) (-places.length)) := by
  unfold decimal? pointed
  by_cases hnone : places = []
  · subst hnone
    have htake : whole.takeWhile isDigit = whole := List.takeWhile_eq_self_iff.2 hwhole
    have hdrop : whole.dropWhile isDigit = [] := List.dropWhile_eq_nil_iff.2 hwhole
    simp [htake, hdrop, fraction, exponent?, hne]
  · have hpoint : isDigit '.' = false := by decide
    have htake : (whole ++ '.' :: places).takeWhile isDigit = whole := by
      rw [List.takeWhile_append_of_pos hwhole, List.takeWhile_cons_of_neg (by simp [hpoint]),
        List.append_nil]
    have hdrop : (whole ++ '.' :: places).dropWhile isDigit = '.' :: places := by
      rw [List.dropWhile_append_of_pos hwhole, List.dropWhile_cons_of_neg (by simp [hpoint])]
    have hplaces' : places.takeWhile isDigit = places := List.takeWhile_eq_self_iff.2 hplaces
    have hrest : places.dropWhile isDigit = [] := List.dropWhile_eq_nil_iff.2 hplaces
    simp [htake, hdrop, fraction, exponent?, hne, hnone, hplaces', hrest]

/-- A numeral without a sign and an exponent reads as the decimal with its digits. -/
theorem ofDigits_places (negative : Bool) (whole places : List Char) :
    ofDigits negative (whole ++ places) (-places.length) =
      ofDecimal negative (digitsValue (whole ++ places)) (-places.length) := by
  unfold ofDigits
  by_cases hzero : digitsValue (whole ++ places) = 0
  · rw [if_pos hzero, hzero, ofDecimal_zero]
  · have hlow : ¬(400 < (-places.length : Int)) := by omega
    have hhigh : ¬((-places.length : Int) + (whole ++ places).length < -400) := by
      rw [List.length_append]
      omega
    rw [if_neg hzero, if_neg hlow, if_neg hhigh]

theorem unsigned?_of_isDigit (negative : Bool) (h : isDigit c = true) (cs : List Char) :
    unsigned? negative (c :: cs) = decimal? negative (c :: cs) := by
  have hword : (c :: cs).map Char.toLower = c :: cs.map Char.toLower := by
    rw [List.map_cons, toLower_of_isDigit h]
  have hi : c ≠ 'i' := by
    rintro rfl
    exact absurd h (by decide)
  have hn : c ≠ 'n' := by
    rintro rfl
    exact absurd h (by decide)
  unfold unsigned?
  simp [hword, hi, hn]

end Digits

section Text

/-- A zero behind a decimal's digits counts as one of its powers of ten. -/
theorem ofDecimal_mul_ten_pow (negative : Bool) (digits k : Nat) :
    ofDecimal negative (digits * 10 ^ k) 0 = ofDecimal negative digits k := by
  have hnum : digits * 10 ^ k * Nat.pow 10 (0 : Int).toNat =
      digits * Nat.pow 10 (k : Int).toNat := by
    simp only [Int.toNat_zero, Int.toNat_natCast, Nat.pow_eq, Nat.pow_zero, Nat.mul_one]
  have hden : (-(k : Int)).toNat = (-(0 : Int)).toNat := by omega
  rw [ofDecimal, ofDecimal, hnum, hden]

structure Decimal.Spells (d : Decimal) (whole places : List Char) : Prop where
  text_eq : d.text = pointed whole places
  ne_nil : whole ≠ []
  whole_digits : ∀ c ∈ whole, isDigit c = true
  places_digits : ∀ c ∈ places, isDigit c = true
  reads (negative : Bool) : ofDecimal negative (digitsValue (whole ++ places)) (-places.length) =
    ofDecimal negative d.digits d.exponent

/-- A decimal without places has zeros behind its digits. -/
theorem Decimal.spells_zeros (d : Decimal) (hplaces : (-d.exponent).toNat = 0) :
    d.Spells (Nat.toDigits 10 d.digits ++ List.replicate d.exponent.toNat '0') [] where
  text_eq := by
    rw [Decimal.text, pointed, if_pos rfl]
    exact if_pos hplaces
  ne_nil := by simp [Nat.toDigits_ne_nil]
  whole_digits := List.forall_mem_append.2
    ⟨fun _ hc => isDigit_of_mem_toDigits hc, fun _ hc => isDigit_of_mem_zeros hc⟩
  places_digits := List.forall_mem_nil _
  reads negative := by
    have hvalue : digitsValue (Nat.toDigits 10 d.digits ++ List.replicate d.exponent.toNat '0') =
        d.digits * 10 ^ d.exponent.toNat := by
      rw [digitsValue_append, digitsValue_toDigits, digitsValue_zeros, List.length_replicate,
        Nat.add_zero, Nat.mul_comm]
    have hexponent : (d.exponent.toNat : Int) = d.exponent := by omega
    rw [List.append_nil, hvalue, List.length_nil, Int.natCast_zero, Int.neg_zero,
      ofDecimal_mul_ten_pow, hexponent]

/-- A decimal with places has zeros before its digits, if these are too few. The padded digits are
cut where the places begin. -/
theorem Decimal.exists_spells_padded (d : Decimal) (hplaces : (-d.exponent).toNat ≠ 0) :
    ∃ whole places, d.Spells whole places := by
  obtain ⟨padded, hpadded⟩ : ∃ padded, padded = List.replicate
      ((-d.exponent).toNat + 1 - (Nat.toDigits 10 d.digits).length) '0' ++
        Nat.toDigits 10 d.digits := ⟨_, rfl⟩
  have hlong : (-d.exponent).toNat + 1 ≤ padded.length := by
    rw [hpadded, List.length_append, List.length_replicate]
    omega
  have hall : ∀ c ∈ padded, isDigit c = true := by
    rw [hpadded]
    exact List.forall_mem_append.2
      ⟨fun _ hc => isDigit_of_mem_zeros hc, fun _ hc => isDigit_of_mem_toDigits hc⟩
  have hvalue : digitsValue padded = d.digits := by
    rw [hpadded, digitsValue_append, digitsValue_zeros, digitsValue_toDigits, Nat.mul_zero,
      Nat.zero_add]
  have hlength : (padded.drop (padded.length - (-d.exponent).toNat)).length =
      (-d.exponent).toNat := by
    rw [List.length_drop]
    omega
  have hsome : padded.drop (padded.length - (-d.exponent).toNat) ≠ [] := by
    apply List.ne_nil_of_length_pos
    omega
  refine ⟨padded.take (padded.length - (-d.exponent).toNat),
    padded.drop (padded.length - (-d.exponent).toNat), ?_, ?_, ?_, ?_, fun negative => ?_⟩
  · rw [Decimal.text, pointed, if_neg hsome, hpadded]
    exact if_neg hplaces
  · apply List.ne_nil_of_length_pos
    rw [List.length_take]
    omega
  · exact fun c hc => hall c (List.mem_of_mem_take hc)
  · exact fun c hc => hall c (List.mem_of_mem_drop hc)
  · have hexponent : (-((-d.exponent).toNat : Int)) = d.exponent := by omega
    rw [List.take_append_drop, hvalue, hlength, hexponent]

/-- Each decimal is spelled by some digits and places. -/
theorem Decimal.exists_spells (d : Decimal) : ∃ whole places, d.Spells whole places := by
  by_cases hplaces : (-d.exponent).toNat = 0
  · exact ⟨_, _, d.spells_zeros hplaces⟩
  · exact d.exists_spells_padded hplaces

/-- The text of a decimal that denotes some units begins with a digit and reads back to them. -/
theorem exists_unsigned?_eq {units : Nat} (h : Representable units) {d : Decimal}
    (hd : ∀ negative, ofDecimal negative d.digits d.exponent = .finite negative units h) :
    ∃ c cs, d.text = c :: cs ∧ isDigit c = true ∧
      ∀ negative, unsigned? negative (c :: cs) = some (.finite negative units h) := by
  obtain ⟨whole, places, htext, hne, hwhole, hplaces, hread⟩ := d.exists_spells
  obtain ⟨c, rest, rfl⟩ := List.exists_cons_of_ne_nil hne
  have hc : isDigit c = true := hwhole c List.mem_cons_self
  obtain ⟨cs, hcs⟩ : ∃ cs, pointed (c :: rest) places = c :: cs := by
    unfold pointed
    split
    · exact ⟨rest, rfl⟩
    · exact ⟨rest ++ '.' :: places, rfl⟩
  refine ⟨c, cs, htext.trans hcs, hc, fun negative => ?_⟩
  rw [unsigned?_of_isDigit negative hc, ← hcs, decimal?_pointed negative hne hwhole hplaces,
    ofDigits_places, hread, hd]

theorem ofText?_of_isDigit {c : Char} (h : isDigit c = true) (cs : List Char) :
    ofText? (c :: cs) = unsigned? false (c :: cs) := by
  unfold ofText?
  split
  · rename_i heq
    cases heq
    exact absurd h (by decide)
  · rename_i heq
    cases heq
    exact absurd h (by decide)
  · rfl

/-- A run of digits reads as the number nearest to the natural number that it denotes. -/
theorem ofText?_of_digits {cs : List Char} (hne : cs ≠ []) (hdigits : ∀ c ∈ cs, isDigit c = true) :
    ofText? cs = some (ofNat (digitsValue cs)) := by
  obtain ⟨c, rest, hcs⟩ := List.exists_cons_of_ne_nil hne
  have hc : isDigit c = true := hdigits c (hcs ▸ List.mem_cons_self)
  have hnum : digitsValue cs * Nat.pow 10 (0 : Int).toNat * one = digitsValue cs * one := by
    simp only [Int.toNat_zero, Nat.pow_eq, Nat.pow_zero, Nat.mul_one]
  have hread : ofDecimal false (digitsValue cs) 0 = ofNat (digitsValue cs) := by
    rw [ofDecimal, ofNat, hnum]
    rfl
  have hplaces : (-([] : List Char).length : Int) = 0 := by simp
  have hpointed : pointed cs [] = cs := if_pos rfl
  rw [hcs, ofText?_of_isDigit hc, unsigned?_of_isDigit false hc, ← hcs, ← hpointed,
    decimal?_pointed false hne hdigits (List.forall_mem_nil _), ofDigits_places, hplaces,
    List.append_nil, hread, hpointed]

/-- A number is read back from its text, also one that is not finite. -/
theorem ofText?_text (n : Number) : ofText? n.text = some n := by
  cases n with
  | finite negative units h =>
    obtain ⟨d, hd, htext⟩ : ∃ d : Decimal,
        (∀ negative, ofDecimal negative d.digits d.exponent = .finite negative units h) ∧
          (if units = 0 then ['0'] else (shortest units).text) = d.text := by
      by_cases hzero : units = 0
      · subst hzero
        exact ⟨⟨0, 0⟩, fun negative => ofDecimal_zero negative 0, by decide⟩
      · have hdenotes : (shortest units).denotes units = true := denotes_shortest h
        rw [if_neg hzero]
        exact ⟨shortest units, Decimal.ofDecimal_of_denotes h hdenotes, rfl⟩
    obtain ⟨c, cs, hcs, hc, hread⟩ := exists_unsigned?_eq h hd
    unfold text
    dsimp only
    rw [htext, hcs]
    cases negative with
    | false => exact (ofText?_of_isDigit hc cs).trans (hread false)
    | true => exact hread true
  | infinite negative => cases negative <;> decide
  | nan => decide

/-- No two numbers have the same text. -/
theorem text_injective {x y : Number} (h : x.text = y.text) : x = y := by
  have hread := congrArg ofText? h
  rw [ofText?_text, ofText?_text] at hread
  exact Option.some.inj hread

end Text

end BisayaPlus.Number
