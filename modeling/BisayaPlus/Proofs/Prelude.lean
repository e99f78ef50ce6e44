import Mathlib.Data.List.TakeWhile

/-!
General facts about results that may be errors, about lists and about the bytes of texts. They know
nothing of programs.
-/

namespace Except

variable {ε ε' α β : Type}

theorem bind_eq_ok_iff {x : Except ε α} {f : α → Except ε β} {b : β} :
    x >>= f = .ok b ↔ ∃ a, x = .ok a ∧ f a = .ok b := by
  cases x with
  | error e => simp [bind, Except.bind]
  | ok a => simp [bind, Except.bind]

theorem bind_eq_error_iff {x : Except ε α} {f : α → Except ε β} {e : ε} :
    x >>= f = .error e ↔ x = .error e ∨ ∃ a, x = .ok a ∧ f a = .error e := by
  cases x with
  | error e' => simp [bind, Except.bind]
  | ok a => simp [bind, Except.bind]

theorem mapError_eq_ok_iff {f : ε → ε'} {r : Except ε α} {a : α} :
    r.mapError f = .ok a ↔ r = .ok a := by
  cases r <;> simp [Except.mapError]

theorem mapError_eq_error_iff {f : ε → ε'} {r : Except ε α} {e' : ε'} :
    r.mapError f = .error e' ↔ ∃ e, r = .error e ∧ f e = e' := by
  cases r <;> simp [Except.mapError]

/-- If a list cannot be mapped, one of its elements cannot. -/
theorem exists_of_mapM_eq_error {f : α → Except ε β} {as : List α} {e : ε}
    (h : as.mapM f = .error e) : ∃ a ∈ as, f a = .error e := by
  induction as with
  | nil => cases h
  | cons a as ih =>
    rw [List.mapM_cons] at h
    rcases bind_eq_error_iff.1 h with h | ⟨b, -, h⟩
    · exact ⟨a, List.mem_cons_self, h⟩
    rcases bind_eq_error_iff.1 h with h | ⟨bs, -, h⟩
    · obtain ⟨a', ha', h⟩ := ih h
      exact ⟨a', List.mem_cons_of_mem a ha', h⟩
    · cases h

end Except

namespace List

section Front

variable {α : Type} {p : α → Bool} {us vs ps ws : List α}

/-- An element that is not in a front of the list stands behind it. -/
theorem exists_of_append_cons_eq {as bs cs ds : List α} {c : α} (h : as ++ c :: bs = cs ++ ds)
    (hc : c ∉ cs) : ∃ es, as = cs ++ es ∧ ds = es ++ c :: bs := by
  obtain ⟨es, rfl, hes⟩ | ⟨es, has, hds⟩ := append_eq_append_iff.1 h
  · cases es with
    | nil => exact ⟨[], by simp, hes.symm⟩
    | cons e es =>
      obtain rfl : c = e := (cons.inj hes).1
      exact absurd (by simp) hc
  · exact ⟨es, has, hds⟩

/-- A list in front of the first item that does not have a property. -/
theorem takeWhile_append_of_head (hus : ∀ a ∈ us, p a = true)
    (hvs : ∀ a ws, vs = a :: ws → p a = false) : (us ++ vs).takeWhile p = us := by
  rw [takeWhile_append_of_pos hus]
  cases vs with
  | nil => simp
  | cons a ws => simp [hvs a ws rfl]

theorem exists_takeWhile (p : α → Bool) (as : List α) :
    ∃ us vs, as = us ++ vs ∧ (∀ a ∈ us, p a = true) ∧ ∀ a ws, vs = a :: ws → p a = false := by
  refine ⟨as.takeWhile p, as.dropWhile p, takeWhile_append_dropWhile.symm,
    fun a ha => mem_takeWhile_imp ha, fun a ws h => ?_⟩
  have hne : as.dropWhile p ≠ [] := by simp [h]
  have hhead := head_dropWhile_not p hne
  simpa [h] using hhead

/-- A list in front of the first item without a property is the longest front that has it. -/
theorem length_le_of_append_eq (h : us ++ vs = ps ++ ws) (hus : ∀ a ∈ us, p a = true)
    (hvs : ∀ a ws, vs = a :: ws → p a = false) (hps : ∀ a ∈ ps, p a = true) :
    ps.length ≤ us.length := by
  have htake := takeWhile_append_of_head hus hvs
  rw [h, takeWhile_append_of_pos hps] at htake
  rw [← htake, length_append]
  omega

theorem eq_of_append_eq (h : us ++ vs = ps ++ ws) (hus : ∀ a ∈ us, p a = true)
    (hvs : ∀ a ws, vs = a :: ws → p a = false) (hps : ∀ a ∈ ps, p a = true)
    (hws : ∀ a vs, ws = a :: vs → p a = false) : us = ps ∧ vs = ws := by
  have htake := takeWhile_append_of_head hus hvs
  rw [h, takeWhile_append_of_head hps hws] at htake
  subst htake
  exact ⟨rfl, append_cancel_left h⟩

/-- What is left when the elements with a property are taken from the end. -/
theorem exists_eq_dropWhile_reverse (p : α → Bool) (as : List α) :
    ∃ tail, as = (as.reverse.dropWhile p).reverse ++ tail ∧ (∀ a ∈ tail, p a = true) ∧
      ∀ a ∈ (as.reverse.dropWhile p).reverse.getLast?, p a = false := by
  refine ⟨(as.reverse.takeWhile p).reverse, ?_, fun a ha => ?_, fun a ha => ?_⟩
  · rw [← reverse_append, takeWhile_append_dropWhile, reverse_reverse]
  · exact mem_takeWhile_imp (mem_reverse.1 ha)
  · rw [getLast?_reverse] at ha
    have hhead := head?_dropWhile_not p as.reverse
    rw [Option.mem_def.1 ha] at hhead
    exact hhead

theorem intercalate_concat (sep : List α) (fields : List (List α)) (last tail : List α) :
    sep.intercalate (fields ++ [last ++ tail]) = sep.intercalate (fields ++ [last]) ++ tail := by
  induction fields with
  | nil => simp
  | cons f fields ih =>
    obtain ⟨g, gs, hg⟩ : ∃ g gs, fields ++ [last] = g :: gs :=
      exists_cons_of_ne_nil (append_ne_nil_of_right_ne_nil _ (cons_ne_nil _ _))
    obtain ⟨g', gs', hg'⟩ : ∃ g gs, fields ++ [last ++ tail] = g :: gs :=
      exists_cons_of_ne_nil (append_ne_nil_of_right_ne_nil _ (cons_ne_nil _ _))
    rw [hg, hg'] at ih
    rw [cons_append, cons_append, hg, hg', intercalate_cons_cons, intercalate_cons_cons, ih,
      ← append_assoc]

/-- An element that is in no field and is not the separator is not between the fields. -/
theorem not_mem_intercalate {a sep : α} {fields : List (List α)} (ha : a ≠ sep)
    (h : ∀ f ∈ fields, a ∉ f) : a ∉ [sep].intercalate fields := by
  induction fields with
  | nil => exact not_mem_nil
  | cons f fields ih =>
    have hothers := ih fun g hg => h g (mem_cons_of_mem _ hg)
    have hf : a ∉ f := h f mem_cons_self
    cases fields with
    | nil => simpa using hf
    | cons g gs =>
      rw [intercalate_cons_cons, mem_append, mem_append, mem_singleton]
      rintro ((hmem | heq) | hmem)
      · exact hf hmem
      · exact ha heq
      · exact hothers hmem

end Front

section Fields

variable {α : Type} [DecidableEq α] {sep : α} {as tail : List α}

/-- No field between two separators has a separator in it. -/
theorem not_mem_of_mem_splitOn {f : List α} (h : f ∈ as.splitOn sep) : sep ∉ f := by
  rw [splitOn_eq_splitOnP] at h
  induction as generalizing f with
  | nil =>
    rw [splitOnP_nil, mem_singleton] at h
    rw [h]
    exact not_mem_nil
  | cons a as ih =>
    rw [splitOnP_cons_eq_if_modifyHead] at h
    by_cases ha : (a == sep) = true
    · rw [if_pos ha, mem_cons] at h
      rcases h with rfl | h
      · exact not_mem_nil
      · exact ih h
    · rw [if_neg ha] at h
      obtain ⟨g, gs, hg⟩ := exists_cons_of_ne_nil (splitOnP_ne_nil (· == sep) as)
      rw [hg, modifyHead_cons, mem_cons] at h
      rcases h with rfl | h
      · intro hmem
        rcases mem_cons.1 hmem with rfl | hmem
        · exact ha (beq_self_eq_true sep)
        · exact ih (hg ▸ mem_cons_self) hmem
      · exact ih (hg ▸ mem_cons_of_mem _ h)

/-- What stands at the end of a list belongs to its last field. -/
theorem exists_splitOn_append (as : List α) (h : sep ∉ tail) : ∃ fields last,
    as.splitOn sep = fields ++ [last] ∧ (as ++ tail).splitOn sep = fields ++ [last ++ tail] := by
  obtain ⟨fields, last, hfields⟩ : ∃ fields last, as.splitOn sep = fields ++ [last] :=
    ⟨_, _, (dropLast_concat_getLast (splitOn_ne_nil sep as)).symm⟩
  refine ⟨fields, last, hfields, ?_⟩
  have hwhole : as ++ tail = [sep].intercalate (fields ++ [last ++ tail]) := by
    rw [intercalate_concat, ← hfields, intercalate_splitOn]
  rw [hwhole, splitOn_intercalate]
  · intro f hf
    rw [mem_append, mem_singleton] at hf
    have hfree : ∀ g ∈ fields ++ [last], sep ∉ g := fun g hg =>
      not_mem_of_mem_splitOn (hfields ▸ hg)
    rcases hf with hf | rfl
    · exact hfree f (mem_append_left _ hf)
    · rw [mem_append]
      rintro (hmem | hmem)
      · exact hfree last (mem_append_right _ (mem_singleton_self _)) hmem
      · exact h hmem
  · exact append_ne_nil_of_right_ne_nil _ (cons_ne_nil _ _)

end Fields

end List

namespace String

/-- The byte of a line feed is in no other character. -/
theorem eq_lineFeed_of_mem {c : Char} (h : (10 : UInt8) ∈ utf8EncodeChar c) : c = '\n' := by
  have hvalue : ∀ n, n < 256 → (10 : UInt8) = UInt8.ofNat n → n = 10 := by
    intro n hn heq
    have hnat := congrArg UInt8.toNat heq
    rw [UInt8.toNat_ofNat', Nat.mod_eq_of_lt hn] at hnat
    exact hnat.symm
  -- A character that takes more than one byte has only bytes from 128 on.
  have hbyte : ∀ n, 128 ≤ n → n < 256 → (10 : UInt8) ≠ UInt8.ofNat n := by
    intro n hlow hhigh heq
    have hten := hvalue n hhigh heq
    omega
  unfold utf8EncodeChar at h
  dsimp only at h
  split at h
  · have hten := hvalue _ (by omega) (List.mem_singleton.1 h)
    exact Char.ext (UInt32.toNat_inj.1 hten)
  · exfalso
    split at h
    · simp only [List.mem_cons, List.not_mem_nil, or_false] at h
      rcases h with h | h <;> exact hbyte _ (by omega) (by omega) h
    · split at h
      · simp only [List.mem_cons, List.not_mem_nil, or_false] at h
        rcases h with h | h | h <;> exact hbyte _ (by omega) (by omega) h
      · simp only [List.mem_cons, List.not_mem_nil, or_false] at h
        rcases h with h | h | h | h <;> exact hbyte _ (by omega) (by omega) h

theorem toUTF8_ofList (cs : List Char) :
    (ofList cs).toUTF8.data.toList = cs.flatMap utf8EncodeChar := by
  simp [toUTF8, List.utf8Encode]

end String
