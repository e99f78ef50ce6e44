import BisayaPlus.Operation
import BisayaPlus.Proofs.NumberText

/-!
Loose equality is equality of texts. Two numbers are compared by their places on the line and two
booleans as such, but since a number is read back from its text, nothing is gained or lost by that:
only the two zeros have two texts, and a value shows both of them as 0. So loose equality is an
equivalence across all kinds of values, as long as there is no number that is none.
-/

namespace BisayaPlus

namespace Number

variable {x y : Number} {p : Int}

theorem isZero_iff : x.isZero = true ↔ x.place? = some 0 := beq_iff_eq

/-- Numbers are equal if they have one place. -/
theorem equals_iff : x.equals y = true ↔ ∃ p, x.place? = some p ∧ y.place? = some p := by
  rw [equals, beq_iff_eq, order?]
  cases x.place? with
  | none => simp
  | some p =>
    cases y.place? with
    | none => simp
    | some q =>
      rw [Option.some.injEq, compare_eq_iff_eq]
      constructor
      · rintro rfl
        exact ⟨p, rfl, rfl⟩
      · rintro ⟨r, hp, hq⟩
        exact Option.some.inj (hp.trans hq.symm)

theorem place?_finite (negative : Bool) {units : Nat} (h : Representable units) :
    (finite negative units h).place? = some (signed negative units) := by
  cases negative <;> rfl

theorem place?_infinite (negative : Bool) :
    (infinite negative).place? = some (signed negative bound) := by
  cases negative <;> simp only [place?, signed, Bool.false_eq_true, if_true, if_false]

/-- Every number but the one that is none has a place. -/
theorem exists_place? (hx : x ≠ .nan) : ∃ p, x.place? = some p := by
  cases x with
  | finite negative units h => exact ⟨_, place?_finite negative h⟩
  | infinite negative => exact ⟨_, place?_infinite negative⟩
  | nan => exact absurd rfl hx

theorem eq_of_signed_eq {s t : Bool} {u v : Nat} (hs : signed s u = p) (ht : signed t v = p)
    (hp : p ≠ 0) : s = t ∧ u = v := by
  unfold signed at hs ht
  cases s <;> cases t <;> simp only [Bool.false_eq_true, if_true, if_false] at hs ht
  · exact ⟨rfl, by omega⟩
  · omega
  · omega
  · exact ⟨rfl, by omega⟩

/-- Two numbers at one place are the same or both zero. The infinite ones stand at the bounds, where
no other number is. -/
theorem eq_or_eq_zero_of_place? (hx : x.place? = some p) (hy : y.place? = some p) :
    x = y ∨ p = 0 := by
  by_cases hp : p = 0
  · exact .inr hp
  left
  cases x with
  | finite s u hu =>
    have hlt : u < bound := hu.1
    rw [place?_finite, Option.some.injEq] at hx
    cases y with
    | finite t v hv =>
      rw [place?_finite, Option.some.injEq] at hy
      obtain ⟨rfl, rfl⟩ := eq_of_signed_eq hx hy hp
      rfl
    | infinite t =>
      rw [place?_infinite, Option.some.injEq] at hy
      obtain ⟨-, heq⟩ := eq_of_signed_eq hx hy hp
      omega
    | nan => cases hy
  | infinite s =>
    rw [place?_infinite, Option.some.injEq] at hx
    cases y with
    | finite t v hv =>
      have hlt : v < bound := hv.1
      rw [place?_finite, Option.some.injEq] at hy
      obtain ⟨-, heq⟩ := eq_of_signed_eq hx hy hp
      omega
    | infinite t =>
      rw [place?_infinite, Option.some.injEq] at hy
      obtain ⟨rfl, -⟩ := eq_of_signed_eq hx hy hp
      rfl
    | nan => cases hy
  | nan => cases hx

end Number

namespace Value

variable {a b c : Value} {x y : Number}

/-- A zero is shown without its sign. -/
theorem display_of_isZero (hx : x.isZero = true) : (number x).display = "0" := by
  rw [display, if_pos hx]

theorem display_of_not_isZero (hx : ¬x.isZero = true) :
    (number x).display = String.ofList x.text := by
  rw [display, if_neg hx]

/-- No number but a zero shows as 0, since the text is read back. -/
theorem display_ne_zero (hx : ¬x.isZero = true) : (number x).display ≠ "0" := by
  rw [display_of_not_isZero hx]
  intro h
  have htext : x.text = (Number.zero false).text := by
    have hlist := congrArg String.toList h
    rwa [String.toList_ofList] at hlist
  rw [Number.text_injective htext] at hx
  exact hx rfl

/-- Numbers are equal where their texts are. -/
theorem equals_iff_display_eq (hx : x ≠ .nan) :
    x.equals y = true ↔ (number x).display = (number y).display := by
  rw [Number.equals_iff]
  by_cases hzero : x.isZero = true
  · have hplace := Number.isZero_iff.1 hzero
    rw [display_of_isZero hzero]
    constructor
    · rintro ⟨p, hp, hp'⟩
      rw [hplace] at hp
      rw [← hp] at hp'
      rw [display_of_isZero (Number.isZero_iff.2 hp')]
    · intro h
      by_contra hnone
      have hy : ¬y.isZero = true := fun hy => hnone ⟨0, hplace, Number.isZero_iff.1 hy⟩
      exact display_ne_zero hy h.symm
  · constructor
    · rintro ⟨p, hp, hp'⟩
      rcases Number.eq_or_eq_zero_of_place? hp hp' with rfl | rfl
      · rfl
      · exact absurd (Number.isZero_iff.2 hp) hzero
    · intro h
      have hy : ¬y.isZero = true := by
        intro hy
        rw [display_of_isZero hy] at h
        exact display_ne_zero hzero h
      rw [display_of_not_isZero hzero, display_of_not_isZero hy] at h
      obtain rfl : x = y := Number.text_injective (String.ofList_injective h)
      obtain ⟨p, hp⟩ := Number.exists_place? hx
      exact ⟨p, hp, hp⟩

/-- Values are loosely equal where their texts are equal, whatever their kinds are. -/
theorem looselyEquals_iff_display_eq (ha : a ≠ .number .nan) :
    a.looselyEquals b = true ↔ a.display = b.display := by
  unfold looselyEquals
  split
  · rename_i x y
    exact equals_iff_display_eq fun hx => ha (congrArg number hx)
  · rename_i p q
    cases p <;> cases q <;> decide
  · exact beq_iff_eq

/-- Loose equality is equality of texts, and so an equivalence. The operators for it and for its
negation have a result for all operands. -/
theorem looselyEquals_equivalence (ha : a ≠ .number .nan) (hb : b ≠ .number .nan) :
    (a.looselyEquals b = true ↔ a.display = b.display) ∧
      a.looselyEquals a = true ∧
      (a.looselyEquals b = true → b.looselyEquals a = true) ∧
      (a.looselyEquals b = true → b.looselyEquals c = true → a.looselyEquals c = true) ∧
      ∃ r : Bool, (r = true ↔ a.display = b.display) ∧
        BinaryOp.equal.apply a b = .ok (.boolean r) ∧
        BinaryOp.notEqual.apply a b = .ok (.boolean !r) := by
  have hab := looselyEquals_iff_display_eq (b := b) ha
  refine ⟨hab, ?_, ?_, ?_, a.looselyEquals b, hab, rfl, rfl⟩
  · exact (looselyEquals_iff_display_eq ha).2 rfl
  · intro h
    exact (looselyEquals_iff_display_eq hb).2 (hab.1 h).symm
  · intro h h'
    exact (looselyEquals_iff_display_eq ha).2
      ((hab.1 h).trans ((looselyEquals_iff_display_eq hb).1 h'))

/-- The two zeros are equal to each other through the text of one of them. -/
theorem looselyEquals_equivalence_zeros :
    let a : Value := .number (.zero true)
    let b : Value := .text "0"
    let c : Value := .number (.zero false)
    a ≠ .number .nan ∧ b ≠ .number .nan ∧
      a.looselyEquals b = true ∧ b.looselyEquals c = true ∧
      (a.looselyEquals b = true ↔ a.display = b.display) ∧
      a.looselyEquals a = true ∧
      (a.looselyEquals b = true → b.looselyEquals a = true) ∧
      (a.looselyEquals b = true → b.looselyEquals c = true → a.looselyEquals c = true) ∧
      ∃ r : Bool, (r = true ↔ a.display = b.display) ∧
        BinaryOp.equal.apply a b = .ok (.boolean r) ∧
        BinaryOp.notEqual.apply a b = .ok (.boolean !r) := by
  intro a b c
  have ha : a ≠ .number .nan := by decide
  have hb : b ≠ .number .nan := by decide
  exact ⟨ha, hb, by decide, by decide, looselyEquals_equivalence ha hb⟩

end Value

end BisayaPlus
