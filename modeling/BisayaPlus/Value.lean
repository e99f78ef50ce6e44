import BisayaPlus.Number.Shortest
import BisayaPlus.Text.WhiteSpace

/-!
Values, their texts, and their readings as numbers and as booleans. Values of different kinds are
compared by their texts.
-/

namespace BisayaPlus

inductive Value where
  | number (n : Number)
  | text (s : String)
  | boolean (b : Bool)
  | character (c : Char)
  deriving DecidableEq

namespace Value

def trueWord : String := "OO"

def falseWord : String := "DILI"

def kindName : Value → String
  | .number _ => "number"
  | .text _ => "text"
  | .boolean _ => "boolean"
  | .character _ => "character"

def isTextual : Value → Bool
  | .text _ | .character _ => true
  | _ => false

/-- The text of a value. Both zeros are shown as 0. -/
def display : Value → String
  | .number n => if n.isZero then "0" else String.ofList n.text
  | .text s => s
  | .boolean b => if b then trueWord else falseWord
  | .character c => c.toString

inductive Reading where
  | number
  | boolean
  deriving DecidableEq

def Reading.description : Reading → String
  | .number => "a number"
  | .boolean => "a boolean (OO or DILI)"

structure Mismatch where
  wanted : Reading
  found : Value
  deriving DecidableEq

def Mismatch.message (m : Mismatch) : String :=
  "Expected " ++ m.wanted.description ++ ", found " ++ m.found.kindName ++ " '" ++
    m.found.display ++ "'"

def finiteNumeral? (cs : List Char) : Option Number :=
  (Number.ofText? cs).filter Number.isFinite

/-- A number is read as itself, a text as the finite numeral that it spells between white space,
and a character as its digit. -/
def toNumber (v : Value) : Except Mismatch Number :=
  let number? :=
    match v with
    | .number n => some n
    | .text s => finiteNumeral? (Text.trim s.toList)
    | .character c => if Number.isDigit c then some (.ofNat (Number.digitValue c)) else none
    | .boolean _ => none
  match number? with
  | some n => .ok n
  | none => .error ⟨.number, v⟩

/-- A boolean is read as itself and a text as the boolean whose word it is. -/
def toBoolean (v : Value) : Except Mismatch Bool :=
  match v with
  | .boolean b => .ok b
  | .text s =>
    if s = trueWord then .ok true
    else if s = falseWord then .ok false
    else .error ⟨.boolean, v⟩
  | _ => .error ⟨.boolean, v⟩

/-- Numbers are equal as numbers, booleans as booleans, and all else by text. -/
def looselyEquals : Value → Value → Bool
  | .number x, .number y => x.equals y
  | .boolean a, .boolean b => a == b
  | v, w => v.display == w.display

def textOrder (s t : String) : Ordering :=
  if s < t then .lt else if s = t then .eq else .gt

/-- How two values stand to each other: textual ones by text, all others as numbers. -/
def order? (v w : Value) : Except Mismatch (Option Ordering) :=
  if v.isTextual && w.isTextual then
    .ok (some (textOrder v.display w.display))
  else do
    let x ← v.toNumber
    let y ← w.toNumber
    return x.order? y

end Value

end BisayaPlus
