/-!
Binary numbers of limited precision. A format counts in a least unit `2^-places`, keeps `precision`
binary digits of a count, and has no number from `2^ceiling` on. Every operation gives its exact
result rounded to the nearest number of the format, and a tie goes to the even one.
-/
namespace StyleFold.Number

structure Format where
  precision : Nat
  places : Nat
  ceiling : Nat
deriving DecidableEq

def double : Format :=
  ⟨53, 1074, 1024⟩

def single : Format :=
  ⟨24, 149, 128⟩

/-- A number without its sign. A finite one counts least units. -/
inductive Magnitude where
  | finite (units : Nat)
  | infinite
  | notANumber
deriving DecidableEq

def roundHalfEven (n d : Nat) : Nat :=
  let q := n / d
  let r := n % d
  if 2 * r < d then q else if d < 2 * r then q + 1 else q + q % 2

namespace Format

/-- The distance between the numbers of the format that are as large as `units`. -/
def gap (f : Format) (units : Nat) : Nat :=
  Nat.pow 2 (Nat.log2 units + 1 - f.precision)

def round (f : Format) (n d : Nat) : Magnitude :=
  let g := f.gap (n / d)
  let units := roundHalfEven n (d * g) * g
  if units < Nat.pow 2 (f.ceiling + f.places) then .finite units else .infinite

def scale (f : Format) : Nat :=
  Nat.pow 2 f.places

def ofNat (f : Format) (n : Nat) : Magnitude :=
  f.round (n * f.scale) 1

def powerOfTen (f : Format) (negative : Bool) (n : Nat) : Magnitude :=
  if negative then f.round f.scale (Nat.pow 10 n) else f.round (Nat.pow 10 n * f.scale) 1

def add (f : Format) : Magnitude → Magnitude → Magnitude
  | .finite m, .finite n => f.round (m + n) 1
  | .notANumber, _ | _, .notANumber => .notANumber
  | _, _ => .infinite

def mul (f : Format) : Magnitude → Magnitude → Magnitude
  | .finite m, .finite n => f.round (m * n) f.scale
  | .infinite, .infinite => .infinite
  | .infinite, .finite n | .finite n, .infinite => if n = 0 then .notANumber else .infinite
  | .notANumber, _ | _, .notANumber => .notANumber

def divNat (f : Format) (d : Nat) : Magnitude → Magnitude
  | .finite n => f.round n d
  | x => x

def convert (f g : Format) : Magnitude → Magnitude
  | .finite n => g.round (n * g.scale) f.scale
  | x => x

end Format
end StyleFold.Number
