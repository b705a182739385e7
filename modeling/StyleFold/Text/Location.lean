import StyleFold.Text.Ascii

/-! Where a character stands: its line and, within the line, its column. -/
namespace StyleFold.Text

/-- Lines and columns count from one. A column counts UTF-16 units. -/
structure Location where
  line : Nat
  column : Nat
deriving DecidableEq

namespace Location

def start : Location := ⟨1, 1⟩

def nextLine (l : Location) : Location :=
  ⟨l.line + 1, 1⟩

def units (c : Char) : Nat :=
  if c.toNat < 0x10000 then 1 else 2

/-- The location after `s`. A carriage return and the line feed behind it end one line. -/
def advance : Location → List Char → Location
  | l, [] => l
  | l, '\r' :: '\n' :: s => advance l.nextLine s
  | l, c :: s =>
    if isNewline c then advance l.nextLine s else advance ⟨l.line, l.column + units c⟩ s

end Location
end StyleFold.Text
