import BisayaPlus.Program
import BisayaPlus.Store
import BisayaPlus.Token.Lexeme

/-!
Diagnostics: what can be wrong with a source text or a run, in the order of the stages that find
it, with the messages and the advice that are shown. A diagnostic is a fault at a place.
-/

namespace BisayaPlus

def LexicalFault.message : LexicalFault → String
  | .unexpectedCharacter c => "Unexpected character: '" ++ c.toString ++ "'"
  | .unterminatedCharacter => "Unterminated character literal"
  | .unclosedCharacter c => "Expected closing ' after character literal '" ++ c.toString

def LexicalFault.help? : LexicalFault → Option String
  | .unclosedCharacter _ => some "Character literals hold exactly one character, e.g. 'a'."
  | _ => none

inductive Owner where
  | kung
  | kungDili
  | kungWala
  | alangSa
  deriving DecidableEq

def Owner.spelling : Owner → String
  | .kung => "KUNG"
  | .kungDili => "KUNG DILI"
  | .kungWala => "KUNG WALA"
  | .alangSa => "ALANG SA"

inductive Expectation where
  | programStart
  | programEnd
  | declaredName (type : DataType)
  | assignedName
  | equalSign (name : String)
  | outputColon
  | inputColon
  | inputName
  | loopWord
  | headerStart
  | initializerComma
  | conditionComma
  | headerEnd
  | blockWord (owner : Owner)
  | blockStart
  | blockEnd (owner : Owner)
  | closingParenthesis
  deriving DecidableEq

def Expectation.message : Expectation → String
  | .programStart => "Expected 'SUGOD' at the start of the program"
  | .programEnd => "Expected 'KATAPUSAN' at the end of the program"
  | .declaredName _ => "Expected variable name in declaration"
  | .assignedName => "Expected variable name"
  | .equalSign name => "Expected '=' after '" ++ name ++ "'"
  | .outputColon => "Expected ':' after IPAKITA"
  | .inputColon => "Expected ':' after DAWAT"
  | .inputName => "Expected variable name in DAWAT"
  | .loopWord => "Expected 'SA' after 'ALANG'"
  | .headerStart => "Expected '(' after 'ALANG SA'"
  | .initializerComma => "Expected ',' after loop initializer"
  | .conditionComma => "Expected ',' after loop condition"
  | .headerEnd => "Expected ')' after loop clauses"
  | .blockWord owner => "Expected 'PUNDOK' to open the " ++ owner.spelling ++ " block"
  | .blockStart => "Expected '\x7b' after 'PUNDOK'"
  | .blockEnd _ => "Expected '\x7d' after block"
  | .closingParenthesis => "Expected ')' after expression"

def Expectation.help? : Expectation → Option String
  | .programStart => some "Every program is written between SUGOD and KATAPUSAN."
  | .programEnd => some "Close the program with KATAPUSAN after its last statement."
  | .declaredName type => some ("Example: MUGNA " ++ type.spelling ++ " x, y = ...")
  | .assignedName => none
  | .equalSign _ => some "Assignments look like: x = 1 or x = y = 4"
  | .outputColon => some "Output statements look like: IPAKITA: x & \"text\" & $"
  | .inputColon => some "Input statements look like: DAWAT: x, y"
  | .inputName => none
  | .loopWord => some "Loops start with ALANG SA."
  | .headerStart => some "Loops look like: ALANG SA (i = 1, i <= 3, i++) PUNDOK \x7b ... \x7d"
  | .initializerComma => none
  | .conditionComma => none
  | .headerEnd => some "The loop header holds exactly three clauses separated by commas."
  | .blockWord _ => some "Blocks look like: PUNDOK \x7b ... \x7d"
  | .blockStart => some "Blocks look like: PUNDOK \x7b ... \x7d"
  | .blockEnd owner =>
    some ("The " ++ owner.spelling ++
      " block opened with 'PUNDOK \x7b' must be closed with '\x7d'.")
  | .closingParenthesis =>
    some "Every opening parenthesis '(' must have a matching closing parenthesis ')'."

inductive SyntaxFault where
  | expected (what : Expectation) (found : Option String)
  | strayClause (keyword : Keyword)
  | missingStatement
  | notStatement (lexeme : String)
  | notDataType (lexeme : String)
  | notLiteral (lexeme : String)
  | emptyCharacter
  | numberTooLarge
  | invalidNumber (lexeme : String)
  | bareCondition (owner : Owner)
  | notInitializer (lexeme : String)
  | missingExpression
  | emptyParentheses
  | missingOperand (operator : String)
  | notExpression (kind : Token.Kind) (lexeme : String)
  deriving DecidableEq

def SyntaxFault.message : SyntaxFault → String
  | .expected what none => what.message ++ ", found end of input"
  | .expected what (some lexeme) => what.message ++ ", found '" ++ lexeme ++ "'"
  | .strayClause keyword => "'" ++ keyword.spelling ++ "' without a preceding KUNG"
  | .missingStatement => "Unexpected end of input"
  | .notStatement lexeme => "Expected a statement, found '" ++ lexeme ++ "'"
  | .notDataType lexeme => "Expected a data type after MUGNA, found '" ++ lexeme ++ "'"
  | .notLiteral lexeme => "Expected a literal value after '=', found '" ++ lexeme ++ "'"
  | .emptyCharacter => "Empty character literal"
  | .numberTooLarge => "Number literal is too large"
  | .invalidNumber lexeme => "Invalid number '" ++ lexeme ++ "'"
  | .bareCondition owner => "Expected '(' after '" ++ owner.spelling ++ "'"
  | .notInitializer lexeme => "Expected loop initializer, found '" ++ lexeme ++ "'"
  | .missingExpression => "Unexpected end of input"
  | .emptyParentheses => "Empty parentheses are not allowed"
  | .missingOperand operator => "Expected expression after '" ++ operator ++ "'"
  | .notExpression _ lexeme => "Expected expression, found '" ++ lexeme ++ "'"

def SyntaxFault.help? : SyntaxFault → Option String
  | .expected what _ => what.help?
  | .strayClause _ => some "KUNG DILI and KUNG WALA clauses must follow a KUNG block."
  | .missingStatement => some "The program or block is missing its closing keyword."
  | .notStatement _ =>
    some "Statements start with MUGNA, IPAKITA, DAWAT, KUNG, ALANG SA, or a variable name."
  | .notDataType _ => some "The data types are NUMERO, LETRA, TINUOD, and TIPIK."
  | .notLiteral _ =>
    some "Declarations may only be initialized with a number, \"text\", 'c', OO, or DILI."
  | .emptyCharacter => none
  | .numberTooLarge => none
  | .invalidNumber _ => none
  | .bareCondition owner =>
    some ("Conditions are parenthesised: " ++ owner.spelling ++
      " (x > 0) PUNDOK \x7b ... \x7d")
  | .notInitializer _ => none
  | .missingExpression =>
    some ("Expected an expression here. Check for unmatched parentheses or incomplete " ++
      "statements.")
  | .emptyParentheses => some "Parentheses must contain an expression, e.g. (x + 1)"
  | .missingOperand _ => some "Operators require an expression on both sides."
  | .notExpression (.symbol .rightParen) _ =>
    some "Found ')' without matching '('. Check for unbalanced parentheses."
  | .notExpression (.symbol .leftBracket) _ | .notExpression (.symbol .rightBracket) _ =>
    some "Brackets are only valid as the escapes [[], []], and [#]."
  | .notExpression (.keyword _) _ => some "Keywords cannot be used as values."
  | .notExpression _ _ =>
    some "Expected a literal value, variable, or parenthesized expression here."

/-- Where a value is not of the kind that is wanted. -/
inductive TypeFault where
  | initializer (type : DataType) (name : String) (value : Value)
  | unaryOperand (operator : UnaryOp) (mismatch : Value.Mismatch)
  | binaryOperand (operator : BinaryOp) (mismatch : Value.Mismatch)
  | condition (mismatch : Value.Mismatch)
  deriving DecidableEq

def TypeFault.message : TypeFault → String
  | .initializer type name value =>
    "Cannot initialize " ++ type.spelling ++ " variable '" ++ name ++ "' with " ++
      value.kindName ++ " '" ++ value.display ++ "'"
  | .unaryOperand operator mismatch =>
    "Operator '" ++ operator.spelling ++ "': " ++ mismatch.message
  | .binaryOperand operator mismatch =>
    "Operator '" ++ operator.spelling ++ "': " ++ mismatch.message
  | .condition mismatch => "Condition must be OO or DILI: " ++ mismatch.message

/-- A number that does not fit NUMERO is one that is not whole. -/
def TypeFault.help? : TypeFault → Option String
  | .initializer .numero _ (.number _) =>
    some "NUMERO holds whole numbers; use TIPIK for decimals."
  | _ => none

inductive RuntimeFault where
  | divisionByZero (operator : BinaryOp)
  | overflow (operator : BinaryOp)
  | unwritten (reason : String)
  | undecodableLine
  | endOfInput (targets : List String)
  | tooFewPieces (targets : List String) (pieces : Nat)
  deriving DecidableEq

def RuntimeFault.message : RuntimeFault → String
  | .divisionByZero _ => "Division by zero"
  | .overflow _ => "Numeric overflow"
  | .unwritten reason => "Failed to write output: " ++ reason
  | .undecodableLine => "Failed to read input: stream did not contain valid UTF-8"
  | .endOfInput targets =>
    "Unexpected end of input while reading values for " ++ String.intercalate ", " targets
  | .tooFewPieces targets pieces =>
    "Expected " ++ Nat.repr targets.length ++ " input value(s) for " ++
      String.intercalate ", " targets ++ ", got " ++ Nat.repr pieces

def RuntimeFault.help? : RuntimeFault → Option String
  | .divisionByZero operator =>
    some ("The right-hand side of '" ++ operator.spelling ++ "' evaluated to 0.")
  | .overflow operator =>
    some ("The result of '" ++ operator.spelling ++ "' is too large to represent.")
  | .unwritten _ => none
  | .undecodableLine => none
  | .endOfInput _ => some "DAWAT reads one line of comma-separated values."
  | .tooFewPieces _ _ => some "Separate the values with commas, e.g. 1, 2"

inductive Fault where
  | lexical (fault : LexicalFault)
  | grammatical (fault : SyntaxFault)
  | naming (fault : NameFault)
  | typing (fault : TypeFault)
  | runtime (fault : RuntimeFault)
  deriving DecidableEq

def Fault.label : Fault → String
  | .lexical _ => "Lexical Error"
  | .grammatical _ => "Syntax Error"
  | .naming _ => "Name Error"
  | .typing _ => "Type Error"
  | .runtime _ => "Runtime Error"

def Fault.message : Fault → String
  | .lexical f => f.message
  | .grammatical f => f.message
  | .naming f => f.message
  | .typing f => f.message
  | .runtime f => f.message

def Fault.help? : Fault → Option String
  | .lexical f => f.help?
  | .grammatical f => f.help?
  | .naming _ => none
  | .typing f => f.help?
  | .runtime f => f.help?

structure Diagnostic where
  fault : Fault
  mark : Mark
  deriving DecidableEq

def Diagnostic.display (d : Diagnostic) : String :=
  d.fault.label ++ " at line " ++ Nat.repr d.mark.line ++ ": " ++ d.fault.message

end BisayaPlus
