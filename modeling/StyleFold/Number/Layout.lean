import StyleFold.Number.Shortest

/-! The text of numbers. -/
namespace StyleFold.Number

/-- The digits with the point behind the first `n` of them, which may lie outside the digits. -/
def positional (digits : List Char) (n : Int) : List Char :=
  if n ≤ 0 then '0' :: '.' :: (List.replicate (-n).toNat '0' ++ digits)
  else
    let whole := digits.take n.toNat ++ List.replicate (n.toNat - digits.length) '0'
    let fraction := digits.drop n.toNat
    whole ++ '.' :: (if fraction.isEmpty then ['0'] else fraction)

def exponential (digits : List Char) (n : Int) : List Char :=
  let fraction := digits.drop 1
  digits.take 1 ++ (if fraction.isEmpty then [] else '.' :: fraction) ++
    'e' :: (toString n).toList

/-- Positional from `10^-4` up to but not including `10^16`, exponential beyond. -/
def Point.text (p : Point) : List Char :=
  let digits := Nat.toDigits 10 p.digits
  let n := digits.length + p.exponent
  if -4 < n && n ≤ 16 then positional digits n else exponential digits (n - 1)

def text (f : Format) (negative : Bool) (x : Magnitude) : List Char :=
  let sign := if negative then ['-'] else []
  match x with
  | .notANumber => ['N', 'a', 'N']
  | .infinite => sign ++ ['i', 'n', 'f']
  | .finite units => sign ++ if units = 0 then ['0', '.', '0'] else (f.shortest units).text

end StyleFold.Number
