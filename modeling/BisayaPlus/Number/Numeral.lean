import BisayaPlus.Number.Basic

/-!
Numerals: an optional sign, decimal digits with an optional point among or beside them, and an
optional exponent of ten. The words for infinity and for the number that is none are read too, in
any case of letters. Reading gives the nearest number.
-/

namespace BisayaPlus.Number

def isDigit (c : Char) : Bool :=
  decide ('0' ≤ c) && decide (c ≤ '9')

def digitValue (c : Char) : Nat :=
  c.toNat - '0'.toNat

theorem toNat_le_of_isDigit {c : Char} (h : isDigit c = true) : c.toNat ≤ '9'.toNat := by
  simp only [isDigit, Bool.and_eq_true, decide_eq_true_eq] at h
  exact h.2

theorem digitValue_lt {c : Char} (h : isDigit c = true) : digitValue c < 10 := by
  have hnine := toNat_le_of_isDigit h
  have hchars : '9'.toNat = '0'.toNat + 9 := rfl
  unfold digitValue
  omega

def digitsValue (cs : List Char) : Nat :=
  cs.foldl (fun n c => 10 * n + digitValue c) 0

def ofDecimal (negative : Bool) (digits : Nat) (exponent : Int) : Number :=
  ofRatio negative (digits * Nat.pow 10 exponent.toNat * one) (Nat.pow 10 (-exponent).toNat)

/-- The number nearest to a run of digits times a power of ten. A value of 10^400 or more is
infinite and one below 10^-400 rounds to zero, so that no larger power is ever built. -/
def ofDigits (negative : Bool) (digits : List Char) (exponent : Int) : Number :=
  if digitsValue digits = 0 then
    zero negative
  else if 400 < exponent then
    .infinite negative
  else if exponent + digits.length < -400 then
    zero negative
  else
    ofDecimal negative (digitsValue digits) exponent

def natural? (cs : List Char) : Option Nat :=
  if !cs.isEmpty && cs.all isDigit then some (digitsValue cs) else none

/-- The exponent that the rest of a numeral denotes. Nothing denotes zero. -/
def exponent? : List Char → Option Int
  | [] => some 0
  | mark :: rest =>
    if mark = 'e' ∨ mark = 'E' then
      match rest with
      | '+' :: digits => (natural? digits).map Int.ofNat
      | '-' :: digits => (natural? digits).map fun n => -Int.ofNat n
      | digits => (natural? digits).map Int.ofNat
    else
      none

/-- The digits after a leading point, and what follows them. -/
def fraction : List Char → List Char × List Char
  | '.' :: rest => (rest.takeWhile isDigit, rest.dropWhile isDigit)
  | rest => ([], rest)

def decimal? (negative : Bool) (cs : List Char) : Option Number :=
  let whole := cs.takeWhile isDigit
  let (places, rest) := fraction (cs.dropWhile isDigit)
  if whole.isEmpty && places.isEmpty then
    none
  else
    (exponent? rest).map fun e => ofDigits negative (whole ++ places) (e - places.length)

def unsigned? (negative : Bool) (cs : List Char) : Option Number :=
  let word := cs.map Char.toLower
  if word = ['i', 'n', 'f'] ∨ word = ['i', 'n', 'f', 'i', 'n', 'i', 't', 'y'] then
    some (.infinite negative)
  else if word = ['n', 'a', 'n'] then
    some .nan
  else
    decimal? negative cs

def ofText? : List Char → Option Number
  | '+' :: rest => unsigned? false rest
  | '-' :: rest => unsigned? true rest
  | cs => unsigned? false cs

end BisayaPlus.Number
