import BisayaPlus.Diagnostic

/-!
What the readers of tokens share. A reader gets the tokens that are left before the stop, which is
the token that ends the program's body, and the last token before them. It returns what it read
with the tokens that are left then. Their number has become smaller, which is why reading ends.
-/

namespace BisayaPlus

/-- Something that was read, its last token, and the fewer than `bound` tokens after it. -/
structure Parsed (α : Type) (bound : Nat) where
  value : α
  last : Token
  rest : List Token
  shorter : rest.length < bound

namespace Parsed

def weaken {α : Type} {m n : Nat} (p : Parsed α m) (h : m ≤ n) : Parsed α n :=
  ⟨p.value, p.last, p.rest, Nat.lt_of_lt_of_le p.shorter h⟩

def map {α β : Type} {n : Nat} (f : α → β) (p : Parsed α n) : Parsed β n :=
  ⟨f p.value, p.last, p.rest, p.shorter⟩

end Parsed

namespace Parse

def blame (fault : SyntaxFault) (t : Token) : Diagnostic :=
  ⟨.grammatical fault, t.mark⟩

def next (stop : Token) (ts : List Token) : Token :=
  ts.headD stop

/-- The token that is taken next. At the end of the source there is none, and the last one is
taken again. -/
def taken (stop last : Token) : List Token → Token
  | t :: _ => t
  | [] => if stop.kind = .sourceEnd then last else stop

/-- A wanted token is missing. At the end of the source the place is the byte after the last
token. -/
def unmet (stop last : Token) (what : Expectation) : List Token → Diagnostic
  | t :: _ => blame (.expected what (some t.lexeme)) t
  | [] =>
    if stop.kind = .sourceEnd then
      ⟨.grammatical (.expected what none), ⟨last.span.next, stop.line⟩⟩
    else
      blame (.expected what (some stop.lexeme)) stop

theorem length_lt_cons (t : Token) (rest : List Token) : rest.length < (t :: rest).length :=
  Nat.lt_succ_self _

def expect (stop : Token) (kind : Token.Kind) (what : Expectation) (last : Token) :
    (ts : List Token) → Except Diagnostic (Parsed Token ts.length)
  | t :: rest =>
    if t.kind = kind then
      .ok ⟨t, t, rest, length_lt_cons t rest⟩
    else
      .error (unmet stop last what (t :: rest))
  | [] => .error (unmet stop last what [])

def accept (kind : Token.Kind) : (ts : List Token) → Option (Parsed Token ts.length)
  | t :: rest => if t.kind = kind then some ⟨t, t, rest, length_lt_cons t rest⟩ else none
  | [] => none

def atSymbol (s : Symbol) : List Token → Bool
  | t :: _ => t.isSymbol s
  | [] => false

def number (t : Token) : Except Diagnostic Number :=
  match Number.ofText? t.lexeme.toList with
  | some n => if n.isFinite then .ok n else .error (blame .numberTooLarge t)
  | none => .error (blame (.invalidNumber t.lexeme) t)

def character (t : Token) : Except Diagnostic Char :=
  match t.lexeme.toList with
  | c :: _ => .ok c
  | [] => .error (blame .emptyCharacter t)

def literal? (t : Token) : Option (Except Diagnostic Value) :=
  match t.kind with
  | .number => some ((number t).map .number)
  | .text => some (.ok (.text t.lexeme))
  | .character => some ((character t).map .character)
  | .boolean => some (.ok (.boolean (t.lexeme == Value.trueWord)))
  | _ => none

end Parse

end BisayaPlus
