import BisayaPlus.Text.Utf8
import BisayaPlus.Value

/-!
The console of a run: the input that is not yet read, as bytes, and the output so far. Input is
read line by line. Output is given line by line to a sink, which may refuse a line or fail to pass
it on.
-/

namespace BisayaPlus

/-- Where the output goes. A line is taken as a whole or refused as a whole, and what was taken is
flushed. Both answers may depend on the lines that were given before, the last of them first, and
a failure says its reason. -/
structure Sink where
  write : List String → String → Except String Unit
  flush : List String → String → Except String Unit

def Sink.willing : Sink :=
  ⟨fun _ _ => .ok (), fun _ _ => .ok ()⟩

/-- The output is what the sink took. The given lines include those that it refused. -/
structure Console where
  input : List UInt8
  output : String
  given : List String
  sink : Sink

namespace Console

def ofInput (input : List UInt8) : Console :=
  ⟨input, "", [], .willing⟩

def takes (c : Console) (line : String) : Bool :=
  (c.sink.write c.given line).isOk

/-- Writes a line and flushes it. A line that was taken stays, also where the flush fails. -/
def write (c : Console) (line : String) : Except String Unit × Console :=
  (do c.sink.write c.given line; c.sink.flush c.given line,
    { c with
      output := if c.takes line then c.output ++ line else c.output
      given := line :: c.given })

def firstLine : List UInt8 → List UInt8 × List UInt8
  | [] => ([], [])
  | b :: rest =>
    if b = 10 then
      ([b], rest)
    else
      (b :: (firstLine rest).1, (firstLine rest).2)

theorem firstLine_eq_nil_iff (bytes : List UInt8) : (firstLine bytes).1 = [] ↔ bytes = [] := by
  cases bytes with
  | nil => simp [firstLine]
  | cons b rest => by_cases h : b = 10 <;> simp [firstLine, h]

def readLine (c : Console) : List UInt8 × Console :=
  ((firstLine c.input).1, { c with input := (firstLine c.input).2 })

def withoutLineEnd (cs : List Char) : List Char :=
  (cs.reverse.dropWhile fun c => c == '\r' || c == '\n').reverse

def pieces (line : String) : List (List Char) :=
  ((withoutLineEnd line.toList).splitOn ',').map Text.trim

end Console

/-- The value of a piece of input: a number if it is all digits and finite, and a text if not. -/
def Value.ofPiece (piece : List Char) : Value :=
  match (Number.natural? piece).bind fun _ => Value.finiteNumeral? piece with
  | some n => .number n
  | none => .text (String.ofList piece)

end BisayaPlus
