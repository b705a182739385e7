import StyleFold.Declaration.Basic
import StyleFold.Error

/-! Finding the declaration of a property in a list, and the priority that several share. -/
namespace StyleFold

inductive DuplicatePolicy where
  | first | last | reject
deriving DecidableEq

namespace DuplicatePolicy

def all : List DuplicatePolicy :=
  [.first, .last, .reject]

def name : DuplicatePolicy → String
  | first => "first-wins"
  | last => "last-wins"
  | reject => "reject"

def ofName? (s : String) : Option DuplicatePolicy :=
  all.find? fun p => p.name = s

end DuplicatePolicy

namespace Declaration

def declaring (property : String) (ds : List Declaration) : List Declaration :=
  ds.filter fun d => d.property = property

def find (policy : DuplicatePolicy) (property : String) (ds : List Declaration) :
    Result (Option Declaration) :=
  match policy, declaring property ds with
  | .first, found => .ok found.head?
  | .last, found => .ok found.getLast?
  | .reject, _ :: _ :: _ => .error (.repeatedLonghand property)
  | .reject, found => .ok found.head?

def require (policy : DuplicatePolicy) (shorthand property : String) (ds : List Declaration) :
    Result Declaration := do
  match ← find policy property ds with
  | some d => .ok d
  | none => .error (.missingLonghand shorthand property)

/-- Fails at the first declaration whose priority differs from `important`. -/
def checkPriority (shorthand : String) (important : Bool) : List Declaration → Result Bool
  | [] => .ok important
  | d :: ds =>
    if d.important = important then checkPriority shorthand important ds
    else .error (.invalidValue d.property (.mixedPriority shorthand))

/-- The priority of the longhands that make up a shorthand. It is normal where there are none. -/
def sharedPriority (shorthand : String) : List Declaration → Result Bool
  | [] => .ok false
  | d :: ds => checkPriority shorthand d.important ds

end Declaration
end StyleFold
