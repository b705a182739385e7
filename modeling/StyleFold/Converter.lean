import StyleFold.Settings
import StyleFold.Shorthand.Registry

/-! Conversion between declaration texts. -/
namespace StyleFold

structure Converter where
  settings : Settings
  registry : Registry Shorthand
deriving DecidableEq

namespace Converter

def ofSettings (s : Settings) : Converter :=
  ⟨s, .builtIn s.duplicates⟩

def read (c : Converter) (text : String) : Result (List Declaration) :=
  c.settings.reader.read text

def expandDeclaration (c : Converter) (d : Declaration) : Result (Option (List Declaration)) :=
  match c.registry.get? d.property with
  | none => .ok none
  | some s => (s.expand d).map some

def collapseDeclarations (c : Converter) (shorthand : String) (ds : List Declaration) :
    Result (Option Declaration) :=
  match c.registry.get? shorthand with
  | none => .ok none
  | some s => (s.collapse ds).map some

/-- The longhands of the first declaration of the text, one a line. -/
def expand (c : Converter) (text : String) : Result (Option String) := do
  match ← c.read text with
  | [] => .ok none
  | d :: _ =>
    let longhands ← c.expandDeclaration d
    .ok (longhands.map Declaration.printAll)

def collapse (c : Converter) (shorthand text : String) : Result (Option String) := do
  let ds ← c.read text
  let d ← c.collapseDeclarations shorthand ds
  .ok (d.map fun d => Declaration.printAll [d])

end Converter
end StyleFold
