import BisayaPlus.Span

/-!
Tokens: keywords, symbols, identifiers and literals, each with its lexeme and its place. A list of
tokens ends with a token for the end of the source.
-/

namespace BisayaPlus

inductive Keyword where
  | sugod
  | katapusan
  | mugna
  | numero
  | letra
  | tinuod
  | tipik
  | ipakita
  | dawat
  | kung
  | kungWala
  | kungDili
  | pundok
  | alang
  | sa
  | ug
  | o
  deriving DecidableEq

def Keyword.spelling : Keyword → String
  | .sugod => "SUGOD"
  | .katapusan => "KATAPUSAN"
  | .mugna => "MUGNA"
  | .numero => "NUMERO"
  | .letra => "LETRA"
  | .tinuod => "TINUOD"
  | .tipik => "TIPIK"
  | .ipakita => "IPAKITA"
  | .dawat => "DAWAT"
  | .kung => "KUNG"
  | .kungWala => "KUNG WALA"
  | .kungDili => "KUNG DILI"
  | .pundok => "PUNDOK"
  | .alang => "ALANG"
  | .sa => "SA"
  | .ug => "UG"
  | .o => "O"

def Keyword.single : List Keyword :=
  [.sugod, .katapusan, .mugna, .numero, .letra, .tinuod, .tipik, .ipakita, .dawat, .kung,
   .pundok, .alang, .sa, .ug, .o]

inductive Symbol where
  | leftParen
  | rightParen
  | leftBrace
  | rightBrace
  | leftBracket
  | rightBracket
  | comma
  | colon
  | plus
  | minus
  | star
  | slash
  | percent
  | ampersand
  | dollar
  | increment
  | equal
  | equalEqual
  | lessGreater
  | less
  | lessEqual
  | greater
  | greaterEqual
  | escapeOpenBracket
  | escapeCloseBracket
  | escapeHash
  deriving DecidableEq

def Symbol.spelling : Symbol → String
  | .leftParen => "("
  | .rightParen => ")"
  | .leftBrace => "\x7b"
  | .rightBrace => "\x7d"
  | .leftBracket => "["
  | .rightBracket => "]"
  | .comma => ","
  | .colon => ":"
  | .plus => "+"
  | .minus => "-"
  | .star => "*"
  | .slash => "/"
  | .percent => "%"
  | .ampersand => "&"
  | .dollar => "$"
  | .increment => "++"
  | .equal => "="
  | .equalEqual => "=="
  | .lessGreater => "<>"
  | .less => "<"
  | .lessEqual => "<="
  | .greater => ">"
  | .greaterEqual => ">="
  | .escapeOpenBracket => "[[]"
  | .escapeCloseBracket => "[]]"
  | .escapeHash => "[#]"

/-- All symbols. One whose spelling begins another's comes after it. -/
def Symbol.all : List Symbol :=
  [.escapeOpenBracket, .escapeCloseBracket, .escapeHash, .increment, .equalEqual, .lessGreater,
   .lessEqual, .greaterEqual, .leftParen, .rightParen, .leftBrace, .rightBrace, .leftBracket,
   .rightBracket, .comma, .colon, .plus, .minus, .star, .slash, .percent, .ampersand, .dollar,
   .equal, .less, .greater]

inductive Token.Kind where
  | keyword (keyword : Keyword)
  | symbol (symbol : Symbol)
  | identifier
  | number
  | text
  | character
  | boolean
  | sourceEnd
  deriving DecidableEq

/-- The lexeme of a text or a character is without its quotes, and that of a keyword or a boolean
is in upper case. -/
structure Token where
  kind : Token.Kind
  lexeme : String
  span : Span
  line : Nat
  deriving DecidableEq

def Token.mark (t : Token) : Mark :=
  ⟨t.span, t.line⟩

def Token.isSymbol (t : Token) (s : Symbol) : Bool :=
  t.kind == .symbol s

def Token.isKeyword (t : Token) (k : Keyword) : Bool :=
  t.kind == .keyword k

end BisayaPlus
