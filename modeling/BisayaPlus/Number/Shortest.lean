import BisayaPlus.Number.Numeral

/-!
The text of a number: the fewest decimal digits that read back to it and, of those, the nearest,
written out in full without an exponent. A value halfway between two such decimals takes the upper
one.
-/

namespace BisayaPlus.Number

/-- A whole number of some power of ten. -/
structure Decimal where
  digits : Nat
  exponent : Int
  deriving DecidableEq

def Decimal.text (d : Decimal) : List Char :=
  let digits := Nat.toDigits 10 d.digits
  let places := (-d.exponent).toNat
  if places = 0 then
    digits ++ List.replicate d.exponent.toNat '0'
  else
    let padded := List.replicate (places + 1 - digits.length) '0' ++ digits
    padded.take (padded.length - places) ++ '.' :: padded.drop (padded.length - places)

/-- Whether reading a decimal gives the positive number with these units. -/
def Decimal.denotes (d : Decimal) (units : Nat) : Bool :=
  match ofDecimal false d.digits d.exponent with
  | .finite _ u _ => u == units
  | _ => false

/-- The number of zeros between the point and the first other digit of a positive number below
one, up to a limit. -/
def leadingZeros (units : Nat) : (limit : Nat) → Nat
  | 0 => 0
  | limit + 1 => if one ≤ 10 * units then 0 else leadingZeros (10 * units) limit + 1

/-- The exponent of the power of ten just above a positive number. No number has more than 323
leading zeros. -/
def magnitude (units : Nat) : Int :=
  if one ≤ units then
    (Nat.toDigits 10 (units / one)).length
  else
    -leadingZeros units 323

/-- The better of the two decimals with `count` digits around a positive number that read back to
it. The one above may be the power of ten, which has a single digit. -/
def nearest? (units count : Nat) : Option Decimal :=
  let top := magnitude units
  let exponent := top - count
  let num := units * Nat.pow 10 (-exponent).toNat
  let den := one * Nat.pow 10 exponent.toNat
  let below : Decimal := ⟨num / den, exponent⟩
  let above : Decimal :=
    if num / den + 1 = Nat.pow 10 count then ⟨1, top⟩ else ⟨num / den + 1, exponent⟩
  let candidates := if 2 * (num % den) < den then [below, above] else [above, below]
  candidates.find? (·.denotes units)

def expansion (units : Nat) : Decimal :=
  ⟨units * Nat.pow 5 1074, -1074⟩

/-- The shortest decimal that reads back to a positive number. Seventeen digits always suffice. -/
def shortest (units : Nat) : Decimal :=
  ((List.range 17).findSome? fun i => nearest? units (i + 1)).getD (expansion units)

def text : Number → List Char
  | .finite negative units _ =>
    let digits := if units = 0 then ['0'] else (shortest units).text
    if negative then '-' :: digits else digits
  | .infinite false => ['i', 'n', 'f']
  | .infinite true => ['-', 'i', 'n', 'f']
  | .nan => ['N', 'a', 'N']

end BisayaPlus.Number
