import BisayaPlus.Diagnostic
import BisayaPlus.Token.Lexeme

/-!
The tokens of a source text. The text is cut into pieces from its front on, each token takes the
place of its piece, and two words that spell one keyword then become one token.
-/

namespace BisayaPlus

structure Position where
  byte : Nat
  line : Nat
  deriving DecidableEq

namespace Position

def start : Position :=
  ⟨0, 1⟩

/-- The position after one more character. Only a line feed begins a new line. -/
def next (p : Position) (c : Char) : Position :=
  ⟨p.byte + c.utf8Size, if c = '\n' then p.line + 1 else p.line⟩

def after (p : Position) (cs : List Char) : Position :=
  cs.foldl next p

theorem after_append (p : Position) (cs ds : List Char) :
    p.after (cs ++ ds) = (p.after cs).after ds :=
  List.foldl_append

end Position

namespace Token

/-- The tokens of a text that begins at a position, or the first place where there is none. A
token is on the line where it starts and a fault on the line where the scan stopped. -/
def scan (p : Position) (cs : List Char) : Except Diagnostic (List Token) :=
  match cs with
  | [] => .ok []
  | c :: rest =>
    let piece := Lexeme.read c rest
    let q := p.after (c :: rest.take piece.more)
    match piece.front with
    | .blank => scan q (rest.drop piece.more)
    | .fault fault => .error ⟨.lexical fault, ⟨⟨p.byte, q.byte⟩, q.line⟩⟩
    | .token kind lexeme =>
      match scan q (rest.drop piece.more) with
      | .ok tokens => .ok (⟨kind, lexeme, ⟨p.byte, q.byte⟩, p.line⟩ :: tokens)
      | .error d => .error d
termination_by cs.length
decreasing_by all_goals (simp only [List.length_drop, List.length_cons]; omega)

/-- The second words of the keywords that are two words, of which the first is KUNG. -/
def secondWords : List (String × Keyword) :=
  [("WALA", .kungWala), ("DILI", .kungDili)]

def twoWords? (first second : Token) : Option Keyword :=
  if first.kind = .keyword .kung ∧ (second.kind = .identifier ∨ second.kind = .boolean) then
    secondWords.lookup (String.ofList (Text.upperCase second.lexeme.toList))
  else
    none

/-- Two tokens that spell one keyword become one, from the left. -/
def joinTwoWords : List Token → List Token
  | first :: second :: rest =>
    match twoWords? first second with
    | some k =>
      ⟨.keyword k, k.spelling, first.span.join second.span, first.line⟩ :: joinTwoWords rest
    | none => first :: joinTwoWords (second :: rest)
  | tokens => tokens

def sourceEnd (p : Position) : Token :=
  ⟨.sourceEnd, "", ⟨p.byte, p.byte⟩, p.line⟩

def ofSource (source : String) : Except Diagnostic (List Token) :=
  match scan .start source.toList with
  | .ok tokens => .ok (joinTwoWords tokens ++ [sourceEnd (Position.start.after source.toList)])
  | .error d => .error d

end Token

end BisayaPlus
