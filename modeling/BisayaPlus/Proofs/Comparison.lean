import BisayaPlus.Proofs.DisplayText
import BisayaPlus.Proofs.FiniteNumbers

/-!
The order of values. Two textual values are ordered by code points and all others by the numbers as
which they are read, so two values that cannot be read have no order. The four operators agree with
each other, from both sides, and with loose equality: what shows the same text is read as the same
number.
-/

namespace BisayaPlus

namespace Value

variable {v w : Value} {x y : Number}

/-- The values are neither both numbers nor both textual, and one of them cannot be read as a
number. -/
structure Unordered (v w : Value) : Prop where
  not_numbers : ¬((∃ x, v = .number x) ∧ ∃ y, w = .number y)
  not_textual : ¬(v.isTextual = true ∧ w.isTextual = true)
  unread : (∃ f, v.toNumber = .error f) ∨ ∃ f, w.toNumber = .error f

/-- One value stands before another, by code points if both are textual and by the numbers as which
they are read if not. -/
inductive Below (v w : Value) : Prop
  | text (ht : v.isTextual = true ∧ w.isTextual = true) (h : v.display < w.display)
  | number {x y : Number} {p q : Int} (ht : ¬(v.isTextual = true ∧ w.isTextual = true))
      (hx : v.toNumber = .ok x) (hy : w.toNumber = .ok y) (hp : x.place? = some p)
      (hq : y.place? = some q) (h : p < q)

structure Stands (v w : Value) (o : Ordering) : Prop where
  order?_eq : v.order? w = .ok (some o)
  order?_swap : w.order? v = .ok (some o.swap)
  lt_iff : o = .lt ↔ v.Below w
  gt_iff : o = .gt ↔ w.Below v
  eq_of_display_eq : v.display = w.display → o = .eq

theorem Unordered.symm (h : v.Unordered w) : w.Unordered v :=
  ⟨fun hn => h.not_numbers hn.symm, fun ht => h.not_textual ht.symm, h.unread.symm⟩

/-- Two textual values are in the order of their texts. -/
theorem order?_of_textual (h : v.isTextual = true ∧ w.isTextual = true) :
    v.order? w = .ok (some (textOrder v.display w.display)) := by
  unfold order?
  rw [h.1, h.2]
  rfl

/-- Values that are not both textual are in the order of their numbers. -/
theorem order?_of_not_textual (h : ¬(v.isTextual = true ∧ w.isTextual = true)) :
    v.order? w = do return (← v.toNumber).order? (← w.toNumber) := by
  unfold order?
  rw [← Bool.and_eq_true] at h
  exact if_neg h

theorem Unordered.exists_order?_eq (h : v.Unordered w) : ∃ f, v.order? w = .error f := by
  rw [order?_of_not_textual h.not_textual]
  cases hx : v.toNumber with
  | error f => exact ⟨f, rfl⟩
  | ok x =>
    cases hy : w.toNumber with
    | error f => exact ⟨f, rfl⟩
    | ok y =>
      rcases h.unread with ⟨f, hf⟩ | ⟨f, hf⟩
      · cases hx.symm.trans hf
      · cases hy.symm.trans hf

/-- What can be compared is textual on both sides, or a number on both sides. -/
theorem textual_or_read_of_not_unordered (h : ¬v.Unordered w) :
    (v.isTextual = true ∧ w.isTextual = true) ∨
      ¬(v.isTextual = true ∧ w.isTextual = true) ∧
        ∃ x y, v.toNumber = .ok x ∧ w.toNumber = .ok y := by
  by_cases ht : v.isTextual = true ∧ w.isTextual = true
  · exact .inl ht
  refine .inr ⟨ht, ?_⟩
  cases hx : v.toNumber with
  | error f =>
    refine absurd ⟨?_, ht, .inl ⟨f, hx⟩⟩ h
    rintro ⟨⟨n, rfl⟩, -⟩
    cases hx
  | ok x =>
    cases hy : w.toNumber with
    | error f =>
      refine absurd ⟨?_, ht, .inr ⟨f, hy⟩⟩ h
      rintro ⟨-, n, rfl⟩
      cases hy
    | ok y => exact ⟨x, y, rfl, rfl⟩

theorem ne_nan_of_toNumber (hv : v ≠ .number .nan) (h : v.toNumber = .ok x) : x ≠ .nan := by
  cases v with
  | number n =>
    obtain rfl : n = x := Except.ok.inj h
    exact fun hn => hv (congrArg number hn)
  | text s =>
    have hs : (text s).Finite := trivial
    exact Number.ne_nan_of_isFinite (hs.toNumber h)
  | character c =>
    have hc : (character c).Finite := trivial
    exact Number.ne_nan_of_isFinite (hc.toNumber h)
  | boolean b => cases h

theorem textOrder_eq_lt {s t : String} : textOrder s t = .lt ↔ s < t := by
  unfold textOrder
  split
  · simp [*]
  · split <;> simp [*]

theorem textOrder_eq_eq {s t : String} : textOrder s t = .eq ↔ s = t := by
  unfold textOrder
  split
  · rename_i hlt
    have hne : s ≠ t := by
      rintro rfl
      exact String.lt_irrefl s hlt
    simp [hne]
  · split <;> simp [*]

theorem textOrder_swap (s t : String) : (textOrder s t).swap = textOrder t s := by
  by_cases hlt : s < t
  · have hback : ¬t < s := String.lt_asymm hlt
    have hne : t ≠ s := by
      rintro rfl
      exact hback hlt
    rw [textOrder, if_pos hlt, textOrder, if_neg hback, if_neg hne]
    rfl
  · by_cases heq : s = t
    · subst heq
      rw [textOrder_eq_eq.2 rfl]
      rfl
    · have hgt : t < s := by
        by_contra hback
        exact heq (String.le_antisymm (String.not_lt.1 hback) (String.not_lt.1 hlt))
      rw [textOrder, if_neg hlt, if_neg heq, textOrder, if_pos hgt]
      rfl

theorem below_iff_of_textual (h : v.isTextual = true ∧ w.isTextual = true) :
    v.Below w ↔ v.display < w.display := by
  constructor
  · rintro (⟨-, hlt⟩ | ⟨hnot, -⟩)
    · exact hlt
    · exact absurd h hnot
  · exact .text h

theorem below_iff_of_read {p q : Int} (ht : ¬(v.isTextual = true ∧ w.isTextual = true))
    (hx : v.toNumber = .ok x) (hy : w.toNumber = .ok y) (hp : x.place? = some p)
    (hq : y.place? = some q) : v.Below w ↔ p < q := by
  constructor
  · rintro (⟨h, -⟩ | ⟨-, hx', hy', hp', hq', hlt⟩)
    · exact absurd h ht
    · cases hx.symm.trans hx'
      cases hy.symm.trans hy'
      cases hp.symm.trans hp'
      cases hq.symm.trans hq'
      exact hlt
  · exact .number ht hx hy hp hq

theorem stands_of_textual (h : v.isTextual = true ∧ w.isTextual = true) :
    v.Stands w (textOrder v.display w.display) where
  order?_eq := order?_of_textual h
  order?_swap := by rw [order?_of_textual h.symm, textOrder_swap]
  lt_iff := by rw [textOrder_eq_lt, below_iff_of_textual h]
  gt_iff := by
    rw [← Ordering.swap_eq_lt, textOrder_swap, textOrder_eq_lt, below_iff_of_textual h.symm]
  eq_of_display_eq := textOrder_eq_eq.2

/-- Values that show the same text are read as numbers at the same place. -/
theorem place?_eq_of_display_eq (hv : v ≠ .number .nan) (hw : w ≠ .number .nan)
    (hx : v.toNumber = .ok x) (hy : w.toNumber = .ok y) (h : v.display = w.display) :
    x.place? = y.place? := by
  -- Both are read as the number that their common text shows, up to the sign of a zero.
  obtain ⟨n, hn, hxn⟩ := exists_ofText?_display hx (ne_nan_of_toNumber hv hx)
  obtain ⟨n', hn', hyn⟩ := exists_ofText?_display hy (ne_nan_of_toNumber hw hy)
  rw [h, hn'] at hn
  obtain rfl := Option.some.inj hn
  obtain ⟨p, hp, hpn⟩ := Number.equals_iff.1 hxn
  obtain ⟨q, hq, hqn⟩ := Number.equals_iff.1 hyn
  rw [hp, hq, ← hpn, hqn]

theorem stands_of_read {p q : Int} (hv : v ≠ .number .nan) (hw : w ≠ .number .nan)
    (ht : ¬(v.isTextual = true ∧ w.isTextual = true)) (hx : v.toNumber = .ok x)
    (hy : w.toNumber = .ok y) (hp : x.place? = some p) (hq : y.place? = some q) :
    v.Stands w (compare p q) where
  order?_eq := by
    rw [order?_of_not_textual ht, hx, hy, ← Number.order?_of_place? hp hq]
    rfl
  order?_swap := by
    rw [order?_of_not_textual fun h => ht h.symm, hx, hy, Int.compare_swap,
      ← Number.order?_of_place? hq hp]
    rfl
  lt_iff := by rw [Int.compare_eq_lt, below_iff_of_read ht hx hy hp hq]
  gt_iff := by rw [Int.compare_eq_gt, below_iff_of_read (fun h => ht h.symm) hy hx hq hp]
  eq_of_display_eq h := by
    have hsame := place?_eq_of_display_eq hv hw hx hy h
    rw [hp, hq, Option.some.injEq] at hsame
    rw [hsame, Int.compare_eq_eq]

/-- Two values that can be compared stand to each other in some way, if neither is NaN. -/
theorem exists_stands (hv : v ≠ .number .nan) (hw : w ≠ .number .nan) (h : ¬v.Unordered w) :
    ∃ o, v.Stands w o := by
  rcases textual_or_read_of_not_unordered h with ht | ⟨ht, x, y, hx, hy⟩
  · exact ⟨_, stands_of_textual ht⟩
  · obtain ⟨p, hp⟩ := Number.exists_place? (ne_nan_of_toNumber hv hx)
    obtain ⟨q, hq⟩ := Number.exists_place? (ne_nan_of_toNumber hw hy)
    exact ⟨_, stands_of_read hv hw ht hx hy hp hq⟩

end Value

namespace BinaryOp

variable {l r : Value}

def orderings : List BinaryOp :=
  [.less, .lessEqual, .greater, .greaterEqual]

/-- A comparison depends on the order of its operands and on nothing else. -/
theorem comparison_of_order? {o : Ordering} (op : BinaryOp) (holds : Ordering → Bool)
    (h : l.order? r = .ok (some o)) : op.comparison holds l r = .ok (.boolean (holds o)) := by
  rw [comparison, h]
  rfl

/-- All operators that ask for the order fail where there is none. -/
theorem exists_apply_eq_error {op : BinaryOp} (hop : op ∈ orderings) (h : l.Unordered r) :
    ∃ f, op.apply l r = .error (.typing f) := by
  obtain ⟨f, hf⟩ := h.exists_order?_eq
  have hfails : ∀ holds, op.comparison holds l r = .error (.typing (.binaryOperand op f)) := by
    intro holds
    rw [comparison, hf]
    rfl
  simp only [orderings, List.mem_cons, List.not_mem_nil, or_false] at hop
  rcases hop with rfl | rfl | rfl | rfl <;> exact ⟨_, hfails _⟩

/-- The four operators fail together, from both sides, and if they do not, two of them answer for
all: the one says that the left operand stands before the right one, and the other that it stands
behind it. Operands that are loosely equal do neither. -/
theorem apply_orderings (hl : l ≠ .number .nan) (hr : r ≠ .number .nan) :
    (l.Unordered r → ∀ op ∈ orderings,
      (∃ f, op.apply l r = .error (.typing f)) ∧ ∃ f, op.apply r l = .error (.typing f)) ∧
    (¬l.Unordered r → ∃ lt gt : Bool,
      (lt = true ↔ l.Below r) ∧ (gt = true ↔ r.Below l) ∧ ¬(lt = true ∧ gt = true) ∧
      less.apply l r = .ok (.boolean lt) ∧ greater.apply l r = .ok (.boolean gt) ∧
      lessEqual.apply l r = .ok (.boolean !gt) ∧ greaterEqual.apply l r = .ok (.boolean !lt) ∧
      greater.apply r l = .ok (.boolean lt) ∧ less.apply r l = .ok (.boolean gt) ∧
      greaterEqual.apply r l = .ok (.boolean !gt) ∧ lessEqual.apply r l = .ok (.boolean !lt) ∧
      (equal.apply l r = .ok (.boolean true) → lt = false ∧ gt = false)) := by
  constructor
  · intro h op hop
    exact ⟨exists_apply_eq_error hop h, exists_apply_eq_error hop h.symm⟩
  · intro h
    obtain ⟨o, ho⟩ := Value.exists_stands hl hr h
    have hequal : equal.apply l r = .ok (.boolean true) → o = .eq := by
      intro he
      have hloose : l.looselyEquals r = true := Value.boolean.inj (Except.ok.inj he)
      exact ho.eq_of_display_eq ((Value.looselyEquals_iff_display_eq hl).1 hloose)
    have hforward : ∀ op holds, comparison op holds l r = .ok (.boolean (holds o)) :=
      fun op holds => op.comparison_of_order? holds ho.order?_eq
    have hbackward : ∀ op holds, comparison op holds r l = .ok (.boolean (holds o.swap)) :=
      fun op holds => op.comparison_of_order? holds ho.order?_swap
    have hnot : ¬((o == .lt) = true ∧ (o == .gt) = true) := by
      cases o <;> decide
    have hback : greater.apply r l = .ok (.boolean (o == .lt)) ∧
        less.apply r l = .ok (.boolean (o == .gt)) ∧
        greaterEqual.apply r l = .ok (.boolean !(o == .gt)) ∧
        lessEqual.apply r l = .ok (.boolean !(o == .lt)) := by
      cases o <;> exact ⟨hbackward _ _, hbackward _ _, hbackward _ _, hbackward _ _⟩
    obtain ⟨hgreater, hless, hgreaterEqual, hlessEqual⟩ := hback
    refine ⟨o == .lt, o == .gt, beq_iff_eq.trans ho.lt_iff, beq_iff_eq.trans ho.gt_iff, hnot,
      hforward _ _, hforward _ _, hforward _ _, hforward _ _, hgreater, hless, hgreaterEqual,
      hlessEqual, fun he => ?_⟩
    rw [hequal he]
    exact ⟨rfl, rfl⟩

/-- A text stands behind a number that it is greater than, although it would stand before it by
code points. A text that is no numeral does not stand anywhere. -/
theorem apply_orderings_mixed :
    let l : Value := .text "10"
    let word : Value := .text "ten"
    let r : Value := .number (.ofNat 9)
    l ≠ .number .nan ∧ word ≠ .number .nan ∧ r ≠ .number .nan ∧
      ¬l.Unordered r ∧ less.apply l r = .ok (.boolean false) ∧
      greater.apply l r = .ok (.boolean true) ∧ lessEqual.apply r l = .ok (.boolean true) ∧
      word.Unordered r ∧ (∃ f, less.apply word r = .error (.typing f)) ∧
      ∃ f, less.apply r word = .error (.typing f) := by
  intro l word r
  have hl : l ≠ .number .nan := by decide
  have hword : word ≠ .number .nan := by decide
  have hr : r ≠ .number .nan := by decide +kernel
  have hten : l.toNumber = .ok (.ofNat 10) := by decide +kernel
  have hun : ¬l.Unordered r := by
    intro h
    rcases h.unread with ⟨f, hf⟩ | ⟨f, hf⟩
    · cases hten.symm.trans hf
    · cases hf
  obtain ⟨lt, gt, -, hgt, hnot, hless, hgreater, -, -, -, -, -, hlessEqual, -⟩ :=
    (apply_orderings hl hr).2 hun
  have hnine : r.toNumber = .ok (.ofNat 9) := rfl
  have hp : (Number.ofNat 9).place? = some (9 * Number.one : Nat) := by decide +kernel
  have hq : (Number.ofNat 10).place? = some (10 * Number.one : Nat) := by decide +kernel
  have hbelow : r.Below l := .number (by decide) hnine hten hp hq (by decide +kernel)
  obtain rfl : gt = true := hgt.2 hbelow
  obtain rfl : lt = false := by simpa using hnot
  have hunread : word.toNumber = .error ⟨.number, .text "ten"⟩ := by decide +kernel
  have hnone : word.Unordered r := by
    refine ⟨?_, by decide, .inl ⟨_, hunread⟩⟩
    rintro ⟨⟨x, hx⟩, -⟩
    exact Value.noConfusion hx
  obtain ⟨hfails, hfails'⟩ := (apply_orderings hword hr).1 hnone less List.mem_cons_self
  exact ⟨hl, hword, hr, hun, hless, hgreater, hlessEqual, hnone, hfails, hfails'⟩

end BinaryOp

end BisayaPlus
