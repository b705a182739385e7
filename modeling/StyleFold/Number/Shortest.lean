import StyleFold.Number.Rounding

/-!
The shortest decimal that names a number of a binary format. The number owns the interval of reals
that round to it, and the shortest decimal is the point of the coarsest decimal grid that meets
this interval, the nearer one of two, and the upper one where they are equally near.
-/
namespace StyleFold.Number

structure Point where
  digits : Nat
  exponent : Int
deriving DecidableEq

namespace Format

/-- Below a power of two the numbers lie closer together than above it, but for the smallest. -/
def isNarrow (f : Format) (units : Nat) : Bool :=
  1 < f.gap units && units == f.gap units * Nat.pow 2 (f.precision - 1)

/-- The lower end of the interval, in quarters of the least unit. -/
def low (f : Format) (units : Nat) : Nat :=
  4 * units - if f.isNarrow units then f.gap units else 2 * f.gap units

def high (f : Format) (units : Nat) : Nat :=
  4 * units + 2 * f.gap units

/-- Both ends round to an even number. -/
def isClosed (f : Format) (units : Nat) : Bool :=
  units / f.gap units % 2 == 0

/-- Quarters of the least unit, in the measure that also holds the steps of the grid `10^k`. -/
def measure (k : Int) (quarters : Nat) : Nat :=
  quarters * Nat.pow 10 (-k).toNat

def step (f : Format) (k : Int) : Nat :=
  4 * f.scale * Nat.pow 10 k.toNat

def isAbove (f : Format) (units : Nat) (k : Int) (d : Nat) : Bool :=
  let x := d * f.step k
  let l := measure k (f.low units)
  if f.isClosed units then l ≤ x else l < x

def isBelow (f : Format) (units : Nat) (k : Int) (d : Nat) : Bool :=
  let x := d * f.step k
  let h := measure k (f.high units)
  if f.isClosed units then x ≤ h else x < h

def onGrid (f : Format) (units : Nat) (k : Int) : Option Nat :=
  let v := measure k (4 * units)
  let d := v / f.step k
  let fromBelow := 0 < d && f.isAbove units k d
  let fromAbove := f.isBelow units k (d + 1)
  if fromBelow && (!fromAbove || 2 * (v % f.step k) < f.step k) then some d
  else if fromAbove then some (d + 1)
  else none

def shortestFrom (f : Format) (units : Nat) : (n : Nat) → (k : Int) → Point
  | 0, k => ⟨measure k (4 * units) / f.step k, k⟩
  | n + 1, k =>
    match f.onGrid units k with
    | some d => ⟨d, k⟩
    | none => f.shortestFrom units n (k - 1)

/-- No number of the format reaches `10^ceiling`, and the grid `10^-places` is finer than the least
unit. -/
def shortest (f : Format) (units : Nat) : Point :=
  f.shortestFrom units (f.ceiling + f.places + 1) f.ceiling

end Format
end StyleFold.Number
