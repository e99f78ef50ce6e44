import BisayaPlus.Number.Numeral
import BisayaPlus.Text.Letters
import BisayaPlus.Text.UpperCase
import BisayaPlus.Text.WhiteSpace
import BisayaPlus.Token
import BisayaPlus.Value

/-!
What stands at the front of a text: white space, a comment, or the longest lexeme of some kind.
-/

namespace BisayaPlus

open Text

inductive LexicalFault where
  | unexpectedCharacter (c : Char)
  | unterminatedCharacter
  | unclosedCharacter (c : Char)
  deriving DecidableEq

namespace Lexeme

inductive Front where
  | blank
  | token (kind : Token.Kind) (lexeme : String)
  | fault (fault : LexicalFault)
  deriving DecidableEq

/-- The front of a text that has a first character, and the number of characters after the first
one that belong to it. -/
structure Piece where
  front : Front
  more : Nat

/-- Words begin with a letter or a low line. -/
def startsWord (c : Char) : Bool :=
  isAlphabetic c || c == '_'

/-- Words go on with letters, digits of any kind and low lines. -/
def continuesWord (c : Char) : Bool :=
  isAlphanumeric c || c == '_'

def symbol? (cs : List Char) : Option Symbol :=
  Symbol.all.find? fun s => s.spelling.toList.isPrefixOf cs

/-- A word stands for a boolean or a keyword if its upper case is the spelling of one, and for
itself if not. -/
def word (cs : List Char) : Front :=
  let upper := String.ofList (upperCase cs)
  if upper = Value.trueWord ∨ upper = Value.falseWord then
    .token .boolean upper
  else
    match Keyword.single.find? fun k => k.spelling == upper with
    | some k => .token (.keyword k) upper
    | none => .token .identifier (String.ofList cs)

/-- The number of characters in a point with digits after it. A point without digits is none of
a number. -/
def placesLength : List Char → Nat
  | '.' :: rest =>
    let places := rest.takeWhile Number.isDigit
    if places.isEmpty then 0 else places.length + 1
  | _ => 0

def number (c : Char) (rest : List Char) : Piece :=
  let digits := rest.takeWhile Number.isDigit
  let more := digits.length + placesLength (rest.drop digits.length)
  ⟨.token .number (String.ofList (c :: rest.take more)), more⟩

/-- A text after its opening quote. It lasts until the next quote, or else until the end. -/
def text (rest : List Char) : Piece :=
  let content := rest.takeWhile (· != '"')
  let closing := if (rest.drop content.length).isEmpty then 0 else 1
  ⟨.token .text (String.ofList content), content.length + closing⟩

def character : List Char → Piece
  | [] => ⟨.fault .unterminatedCharacter, 0⟩
  | c :: '\'' :: _ => ⟨.token .character c.toString, 2⟩
  | c :: _ => ⟨.fault (.unclosedCharacter c), 1⟩

def read (c : Char) (rest : List Char) : Piece :=
  if isWhiteSpace c then
    ⟨.blank, 0⟩
  else if c = '-' ∧ rest.head? = some '-' then
    ⟨.blank, (rest.takeWhile (· != '\n')).length⟩
  else if Number.isDigit c then
    number c rest
  else if c = '"' then
    text rest
  else if c = '\'' then
    character rest
  else if startsWord c then
    let letters := rest.takeWhile continuesWord
    ⟨word (c :: letters), letters.length⟩
  else
    match symbol? (c :: rest) with
    | some s => ⟨.token (.symbol s) s.spelling, s.spelling.length - 1⟩
    | none => ⟨.fault (.unexpectedCharacter c), 0⟩

end Lexeme

end BisayaPlus
