import StyleFold.Text.Ascii

/-! Finite sets of keywords. -/
namespace StyleFold

/-- A type whose values are the keywords of one set, listed in the order of the set. -/
class Keyword (α : Type) where
  all : List α
  word : α → String

namespace Keyword
open Text

def ofText? (α : Type) [Keyword α] (s : List Char) : Option α :=
  (all : List α).find? fun k => sameWord (word k).toList s

def words (α : Type) [Keyword α] : List String :=
  (all : List α).map word

def isWordOf (ws : List String) (s : List Char) : Bool :=
  ws.any fun w => sameWord w.toList s

end Keyword
end StyleFold
