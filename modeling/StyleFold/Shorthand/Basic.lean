import StyleFold.Shorthand.Sides
import StyleFold.Shorthand.Border
import StyleFold.Shorthand.Background
import StyleFold.Shorthand.Font

/-! The shorthand properties that can be converted, and their conversion in both directions. -/
namespace StyleFold
open Declaration

inductive Family where
  | sides (property : String) (naming : LonghandNaming)
  | border
  | background
  | font
deriving DecidableEq

structure Shorthand where
  family : Family
  duplicates : DuplicatePolicy
deriving DecidableEq

namespace Family

def property : Family → String
  | sides property _ => property
  | border => BorderShorthand.property
  | background => BackgroundShorthand.property
  | font => FontShorthand.property

def longhands : Family → String → List Declaration
  | sides property naming, value => SidesShorthand.longhands property naming value
  | border, value => BorderShorthand.longhands value
  | background, value => BackgroundShorthand.longhands value
  | font, value => FontShorthand.longhands value

end Family

namespace Shorthand

def property (s : Shorthand) : String :=
  s.family.property

def expand (s : Shorthand) (d : Declaration) : Result (List Declaration) :=
  if d.property = s.property then
    .ok ((s.family.longhands d.value).map fun l => l.withPriority d.important)
  else .error (.foreignProperty s.property d.property)

def collapse (s : Shorthand) (ds : List Declaration) : Result Declaration :=
  match s.family with
  | .sides property naming => SidesShorthand.collapse s.duplicates property naming ds
  | .border => BorderShorthand.collapse s.duplicates ds
  | .background => BackgroundShorthand.collapse s.duplicates ds
  | .font => FontShorthand.collapse s.duplicates ds

def builtIn (duplicates : DuplicatePolicy) : List Shorthand :=
  [⟨.sides "margin" .behind, duplicates⟩, ⟨.sides "padding" .behind, duplicates⟩,
    ⟨.sides "border-width" .within, duplicates⟩, ⟨.sides "border-style" .within, duplicates⟩,
    ⟨.sides "border-color" .within, duplicates⟩, ⟨.border, duplicates⟩,
    ⟨.background, duplicates⟩, ⟨.font, duplicates⟩]

end Shorthand
end StyleFold
