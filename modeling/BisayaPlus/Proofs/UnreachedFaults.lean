import BisayaPlus.Proofs.NumberText
import BisayaPlus.Proofs.Refusal
import BisayaPlus.Proofs.Rendering

/-!
Faults that no source text has. The grammar has faults for a number that cannot be read, for a
character literal without its character and for a missing statement. The scan only makes literals
that can be read, and statements are only read where tokens are left, so that none of the three is
ever found.
-/

namespace BisayaPlus

open Token

theorem Expectation.exists_message (what : Expectation) :
    ∃ rest, what.message.toList = 'E' :: 'x' :: rest := by
  cases what <;> dsimp only [message] <;> simp [String.toList_append]

namespace SyntaxFault

variable {fault : SyntaxFault}

/-- A fault that a token of a source text can be blamed for. -/
def Reached : SyntaxFault → Prop
  | .missingStatement => False
  | .emptyCharacter => False
  | .invalidNumber _ => False
  | _ => True

/-- The messages of the other faults begin otherwise. -/
theorem Reached.message_ne (h : fault.Reached) {begins : String}
    (hb : begins ∈ ["Invalid number", "Empty character literal"]) (rest : String) :
    fault.message ≠ begins ++ rest := by
  intro hm
  have htext := congrArg String.toList hm
  simp only [List.mem_cons, List.not_mem_nil, or_false] at hb
  cases fault with
  | missingStatement | emptyCharacter | invalidNumber => exact h
  | expected what found =>
    obtain ⟨cs, hcs⟩ := what.exists_message
    cases found <;> obtain rfl | rfl := hb <;> dsimp only [message] at htext <;>
      simp [String.toList_append, hcs] at htext
  | _ =>
    obtain rfl | rfl := hb <;> dsimp only [message] at htext <;>
      simp [String.toList_append] at htext

theorem Reached.help?_ne (h : fault.Reached) :
    fault.help? ≠ some "The program or block is missing its closing keyword." := by
  intro hh
  cases fault with
  | missingStatement => exact h
  | expected what found =>
    dsimp only [help?] at hh
    cases what with
    | declaredName type => cases type <;> simp [Expectation.help?, DataType.spelling] at hh
    | blockEnd owner => cases owner <;> simp [Expectation.help?, Owner.spelling] at hh
    | _ => simp [Expectation.help?] at hh
  | bareCondition owner =>
    dsimp only [help?] at hh
    cases owner <;> simp [Owner.spelling] at hh
  | notExpression kind lexeme =>
    unfold help? at hh
    split at hh <;> contradiction
  | _ =>
    dsimp only [help?] at hh
    simp at hh

/-- None of the faults that can be reached has one of these texts. -/
theorem Reached.texts (h : fault.Reached) :
    (∀ rest, fault.message ≠ "Invalid number" ++ rest) ∧
      fault.message ≠ "Empty character literal" ∧
      fault.help? ≠ some "The program or block is missing its closing keyword." := by
  refine ⟨h.message_ne (by simp), ?_, h.help?_ne⟩
  have hempty := @message_ne _ h "Empty character literal" (by simp) ""
  rwa [String.append_empty] at hempty

end SyntaxFault

namespace Token

/-- A number that was scanned is always read as one. -/
theorem Regular.exists_ofText? {lexeme : String} (h : Regular .number lexeme) :
    ∃ n, Number.ofText? lexeme.toList = some n := by
  cases h with
  | whole hne hd =>
    rw [String.toList_ofList]
    exact ⟨_, Number.ofText?_of_digits hne hd⟩
  | @decimal ds ps hds hd hps hp =>
    obtain ⟨d, ds, rfl⟩ := List.exists_cons_of_ne_nil hds
    have hc := (List.forall_mem_cons.1 hd).1
    have hpointed : Number.pointed (d :: ds) ps = d :: (ds ++ '.' :: ps) := if_neg hps
    rw [String.toList_ofList, List.cons_append, Number.ofText?_of_isDigit hc,
      Number.unsigned?_of_isDigit false hc, ← hpointed, Number.decimal?_pointed false hds hd hp]
    exact ⟨_, rfl⟩

theorem Regular.toList_ne_nil {lexeme : String} (h : Regular .character lexeme) :
    lexeme.toList ≠ [] := by
  cases h
  simp [Char.toString]

end Token

/-- What is said of a token that the scan can make. -/
theorem SyntaxFault.Suits.reached {fault : SyntaxFault} {t : Token} (h : fault.Suits t)
    (ht : Regular t.kind t.lexeme ∨ t.kind = .sourceEnd) : fault.Reached := by
  cases fault with
  | missingStatement => exact h
  | emptyCharacter =>
    obtain ⟨hk, hc⟩ := h
    rw [hk] at ht
    exact ht.elim (fun hr => hr.toList_ne_nil hc) (by simp)
  | invalidNumber lexeme =>
    obtain ⟨hk, -, hn⟩ := h
    rw [hk] at ht
    obtain ⟨n, hs⟩ := (ht.resolve_right (by simp)).exists_ofText?
    rw [hs] at hn
    cases hn
  | _ => trivial

/-- A refusal on tokens of a scan has a fault that can be reached. -/
theorem Parse.Refusal.reached {stop : Token} {ts : List Token} {fault : SyntaxFault} {mark : Mark}
    (h : Refusal stop ts ⟨.grammatical fault, mark⟩)
    (hts : ∀ t, t ∈ ts ∨ t = stop → Regular t.kind t.lexeme ∨ t.kind = .sourceEnd) :
    fault.Reached := by
  generalize hd : (⟨.grammatical fault, mark⟩ : Diagnostic) = d at h
  cases h with
  | blamed ht hf =>
    cases hd
    exact hf.reached (hts _ ht)
  | parentheses =>
    cases hd
    trivial
  | ended =>
    cases hd
    trivial

theorem Token.regular_of_ofSource {source : String} {ts : List Token}
    (h : ofSource source = .ok ts) :
    ∀ t ∈ ts, Regular t.kind t.lexeme ∨ t.kind = .sourceEnd := by
  unfold ofSource at h
  split at h
  · rename_i us hus
    obtain ⟨q, hscans⟩ := scan_eq_ok_iff.1 hus
    cases h
    intro t ht
    obtain ht | ht := List.mem_append.1 ht
    · exact .inl (regular_joinTwoWords hscans.regular t ht)
    · rw [List.mem_singleton.1 ht]
      exact .inr rfl
  · cases h

namespace Program

/-- A source text that is refused for its grammar has no number that cannot be read, no character
literal without its character and no missing statement. -/
theorem texts_of_ofSource_eq_error {source : String} {fault : SyntaxFault} {mark : Mark}
    (h : ofSource source = .error ⟨.grammatical fault, mark⟩) :
    (∀ rest, fault.message ≠ "Invalid number" ++ rest) ∧
      fault.message ≠ "Empty character literal" ∧
      fault.help? ≠ some "The program or block is missing its closing keyword." := by
  refine SyntaxFault.Reached.texts ?_
  obtain ⟨_, _, _, lexical, -, hd⟩ | ⟨before, stop, after, hts, hrefusal⟩ := ofSource_eq_error h
  · cases hd
  · refine hrefusal.reached fun t ht => regular_of_ofSource hts t ?_
    obtain ht | rfl := ht
    · exact List.mem_append_left _ ht
    · simp

/-- A decimal stands where a statement has to begin. -/
theorem texts_of_ofSource_eq_error_decimal :
    ∃ fault mark, ofSource "SUGOD 2.5" = .error ⟨.grammatical fault, mark⟩ ∧
      fault = .notStatement "2.5" ∧ (∀ rest, fault.message ≠ "Invalid number" ++ rest) ∧
      fault.message ≠ "Empty character literal" ∧
      fault.help? ≠ some "The program or block is missing its closing keyword." := by
  have htokens : Token.ofSource "SUGOD 2.5" =
      .ok [⟨.keyword .sugod, "SUGOD", ⟨0, 5⟩, 1⟩, ⟨.number, "2.5", ⟨6, 9⟩, 1⟩,
        ⟨.sourceEnd, "", ⟨9, 9⟩, 1⟩] := by decide +kernel
  have hread : ofSource "SUGOD 2.5" =
      .error ⟨.grammatical (.notStatement "2.5"), ⟨⟨6, 9⟩, 1⟩⟩ := by
    rw [ofSource, htokens]
    cbv
  exact ⟨_, _, hread, rfl, texts_of_ofSource_eq_error hread⟩

end Program

end BisayaPlus
