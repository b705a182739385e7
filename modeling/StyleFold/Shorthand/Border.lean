import StyleFold.Declaration.Lookup
import StyleFold.Text.Words
import StyleFold.Value.Components
import StyleFold.Value.Kind

/-! The `border` shorthand: a width, a style and a color in any order. -/
namespace StyleFold

inductive BorderPart where
  | width | style | color
deriving DecidableEq

namespace BorderPart

def all : List BorderPart :=
  [.width, .style, .color]

def longhand : BorderPart → String
  | width => "border-width"
  | style => "border-style"
  | color => "border-color"

/-- What is neither a width nor a style is a color, unless it is a number. -/
def ofComponent? (component : String) : Option BorderPart :=
  let s := component.toList
  if Value.isBorderWidth s then some width
  else if (Keyword.ofText? BorderStyle s).isSome then some style
  else if Value.isColor s || !Value.isNumeric s then some color
  else none

end BorderPart

namespace BorderShorthand
open Declaration

def property : String :=
  "border"

def component? (components : List String) (part : BorderPart) : Option String :=
  components.find? fun c => BorderPart.ofComponent? c = some part

def longhands (value : String) : List Declaration :=
  BorderPart.all.filterMap fun part =>
    (component? (Value.split value) part).map (Declaration.of part.longhand)

def selected (policy : DuplicatePolicy) (ds : List Declaration) :
    List BorderPart → Result (List Declaration)
  | [] => .ok []
  | part :: parts => do
    match ← find policy part.longhand ds with
    | none => selected policy ds parts
    | some d =>
      if (Value.split d.value).length = 1 then
        let rest ← selected policy ds parts
        .ok (d :: rest)
      else .error (.invalidValue part.longhand .severalValues)

def collapse (policy : DuplicatePolicy) (ds : List Declaration) : Result Declaration := do
  match ← selected policy ds BorderPart.all with
  | [] => .error (.missingLonghand property "border-width, border-style or border-color")
  | found =>
    let important ← sharedPriority property found
    .ok ((Declaration.of property (Text.spaced (found.map trimmedValue))).withPriority important)

end BorderShorthand
end StyleFold
