import StyleFold.Declaration.Lookup
import StyleFold.Sides
import StyleFold.Text.Words
import StyleFold.Value.Components

/-! Shorthands whose value is given by one to four values, one for each side of a box. -/
namespace StyleFold

inductive LonghandNaming where
  /-- Behind the name of the shorthand, as in `margin-top`. -/
  | behind
  /-- Before the last part of the name, as in `border-top-width`. -/
  | within
deriving DecidableEq

namespace LonghandNaming

def splitLast? (name : List Char) : Option (List Char × List Char) :=
  match name.reverse.dropWhile (· != '-') with
  | [] => none
  | _ :: front => some (front.reverse, (name.reverse.takeWhile (· != '-')).reverse)

/-- A name without a hyphen takes the side behind it in either case. -/
def longhand (naming : LonghandNaming) (property : String) (side : Side) : String :=
  match naming, splitLast? property.toList with
  | .within, some (front, last) =>
    String.ofList front ++ "-" ++ side.name ++ "-" ++ String.ofList last
  | _, _ => property ++ "-" ++ side.name

end LonghandNaming

namespace SidesShorthand
open Declaration

def longhands (property : String) (naming : LonghandNaming) (value : String) :
    List Declaration :=
  match Sides.ofList? (Value.split value) with
  | none => []
  | some sides =>
    Side.all.map fun side => Declaration.of (naming.longhand property side) (sides.get side)

def selected (policy : DuplicatePolicy) (property : String) (naming : LonghandNaming)
    (ds : List Declaration) : List Side → Result (List Declaration)
  | [] => .ok []
  | side :: sides => do
    let d ← require policy property (naming.longhand property side) ds
    let rest ← selected policy property naming ds sides
    .ok (d :: rest)

def joined (found : List Declaration) : String :=
  match Sides.ofList? (found.map trimmedValue) with
  | some sides => Text.spaced sides.collapse
  | none => ""

def collapse (policy : DuplicatePolicy) (property : String) (naming : LonghandNaming)
    (ds : List Declaration) : Result Declaration := do
  if ds.length = 4 then
    let found ← selected policy property naming ds Side.all
    let important ← sharedPriority property found
    .ok ((Declaration.of property (joined found)).withPriority important)
  else .error (.longhandCount property 4 ds.length)

end SidesShorthand
end StyleFold
