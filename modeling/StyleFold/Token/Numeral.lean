import StyleFold.Number.Rounding
import StyleFold.Text.Ascii

/-! Decimal numerals as they are spelled, and the number of single precision that one stands for. -/
namespace StyleFold
open Text Number

inductive Sign where
  | plus | minus
deriving DecidableEq

/-- An absent fraction is empty. A point is always followed by a digit. -/
structure Numeral where
  sign : Option Sign
  whole : List Char
  fraction : List Char
  exponent : Option (Sign × List Char)
deriving DecidableEq

namespace Numeral

def startsFraction : List Char → Bool
  | '.' :: d :: _ => isDigit d
  | _ => false

def startsUnsigned : List Char → Bool
  | [] => false
  | c :: s => isDigit c || startsFraction (c :: s)

def starts : List Char → Bool
  | '+' :: s => startsUnsigned s
  | '-' :: s => startsUnsigned s
  | s => startsUnsigned s

def readSign : List Char → Option Sign
  | '+' :: _ => some .plus
  | '-' :: _ => some .minus
  | _ => none

def readFraction : List Char → List Char
  | '.' :: s => s.takeWhile isDigit
  | _ => []

def readExponent : List Char → Option (Sign × List Char) × Nat
  | e :: s =>
    if e == 'e' || e == 'E' then
      let sign := readSign s
      let skip := if sign.isSome then 1 else 0
      let digits := (s.drop skip).takeWhile isDigit
      if digits.isEmpty then (none, 0)
      else (some (sign.getD .plus, digits), 1 + skip + digits.length)
    else (none, 0)
  | [] => (none, 0)

def read (s : List Char) : Numeral × Nat :=
  let sign := readSign s
  let n := if sign.isSome then 1 else 0
  let whole := (s.drop n).takeWhile isDigit
  let n := n + whole.length
  let fraction := readFraction (s.drop n)
  let n := if fraction.isEmpty then n else n + 1 + fraction.length
  let exponent := readExponent (s.drop n)
  (⟨sign, whole, fraction, exponent.1⟩, n + exponent.2)

def digit (c : Char) : Nat :=
  c.toNat - 48

def ofDigits (s : List Char) : Nat :=
  s.foldl (fun n c => 10 * n + digit c) 0

def isNegative (n : Numeral) : Bool :=
  n.sign == some .minus

def isInteger (n : Numeral) : Bool :=
  n.fraction.isEmpty && n.exponent.isNone

/-- The integer spelled, held within 32 bits. -/
def integer? (n : Numeral) : Option Int :=
  if n.isInteger then
    let m : Int := ofDigits n.whole
    some (max (-2147483648) (min 2147483647 (if n.isNegative then -m else m)))
  else none

/-- Digits are taken in one at a time in double precision. -/
def wholeValue (s : List Char) : Magnitude :=
  s.foldl (fun x c => double.add (double.mul x (double.ofNat 10)) (double.ofNat (digit c)))
    (.finite 0)

def fractionValue : (sum place : Magnitude) → List Char → Magnitude
  | sum, _, [] => sum
  | sum, place, c :: s =>
    fractionValue (double.add sum (double.mul (double.ofNat (digit c)) place))
      (double.mul place (double.powerOfTen true 1)) s

/-- Ten to the power of the exponent. Past 400 the power is infinite or zero in any case. -/
def scale : Sign × List Char → Magnitude
  | (sign, digits) => double.powerOfTen (sign = .minus) (min (ofDigits digits) 400)

def precise (n : Numeral) : Magnitude :=
  let x := double.add (wholeValue n.whole)
    (fractionValue (.finite 0) (double.powerOfTen true 1) n.fraction)
  match n.exponent with
  | none => x
  | some e => double.mul x (scale e)

def value (n : Numeral) : Magnitude :=
  double.convert single n.precise

def ratio (n : Numeral) : Magnitude :=
  double.convert single (double.divNat 100 n.precise)

end Numeral
end StyleFold
