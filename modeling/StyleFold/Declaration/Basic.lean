import StyleFold.Text.Ascii
import StyleFold.Text.Blank

/-! Declarations, which give a property its value and a priority, and their text. -/
namespace StyleFold
open Text

structure Declaration where
  property : String
  value : String
  important : Bool
deriving DecidableEq

namespace Declaration

def lowercase (name : String) : String :=
  String.ofList (lower name.toList)

/-- The declaration of a property named in any letter case, of normal priority. -/
def of (property value : String) : Declaration :=
  ⟨lowercase property, value, false⟩

def withPriority (d : Declaration) (important : Bool) : Declaration :=
  { d with important }

def trimmedValue (d : Declaration) : String :=
  String.ofList (trim d.value.toList)

def initial : String :=
  "initial"

def isInitial (d : Declaration) : Bool :=
  sameWord (trim d.value.toList) initial.toList

def print (d : Declaration) : String :=
  d.property ++ ": " ++ d.value ++ (if d.important then " !important" else "") ++ ";"

def printAll : List Declaration → String
  | [] => ""
  | d :: ds => d.print ++ "\n" ++ printAll ds

end Declaration
end StyleFold
