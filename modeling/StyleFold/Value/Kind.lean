import StyleFold.Token.Lexeme
import StyleFold.Keyword.Sets
import StyleFold.Keyword.Words

/-! What kind of value a text is that holds a single token. -/
namespace StyleFold.Value
open Text

/-- The only token of the text besides comments and whitespace. A token that opens a bracket
reaches to the end of its block. -/
def sole? (s : List Char) : Option Token :=
  match Lexeme.afterTrivia (Lexeme.lex s) with
  | [] => none
  | l :: ls =>
    if (Lexeme.afterBlock (Lexeme.nest [] l.token) ls).all Lexeme.isTrivia then some l.token
    else none

def isLengthToken : Token → Bool
  | .dimension _ unit => Keyword.isWordOf lengthUnits unit
  | .number n => n.value = .finite 0
  | _ => false

def isPercentageToken : Token → Bool
  | .percentage _ => true
  | _ => false

def isNumericToken : Token → Bool
  | .number _ | .percentage _ | .dimension _ _ => true
  | _ => false

def isHexColor (s : List Char) : Bool :=
  [3, 4, 6, 8].contains s.length && s.all isHexDigit

def isColorToken : Token → Bool
  | .ident s => Keyword.isWordOf (namedColors ++ specialColors) s
  | .idHash s | .hash s => isHexColor s
  | .function s => Keyword.isWordOf ["rgb", "rgba", "hsl", "hsla"] s
  | _ => false

def isLength (s : List Char) : Bool :=
  (sole? s).any isLengthToken

def isLengthPercentage (s : List Char) : Bool :=
  isLength s || (sole? s).any isPercentageToken

def isNumeric (s : List Char) : Bool :=
  (sole? s).any isNumericToken

def isBorderWidth (s : List Char) : Bool :=
  isLength s || (Keyword.ofText? LineWidth s).isSome

def isColor (s : List Char) : Bool :=
  (sole? s).any isColorToken

end StyleFold.Value
