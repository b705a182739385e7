import StyleFold.Pattern.Basic
import StyleFold.Keyword.Words

/-! Patterns for the pieces that style values share: numbers, units and function calls. -/
namespace StyleFold.Pattern
open Text

def decimal : Pattern :=
  alt (seq (many1 isDigit) (optional (seq (symbol '.') (many isDigit))))
    (seq (symbol '.') (many1 isDigit))

def unit : Pattern :=
  oneOf (lengthUnits ++ ["%"])

def decimalWithUnit : Pattern :=
  seq decimal (optional unit)

def signedDecimal : Pattern :=
  seq (optional (char fun c => c == '-' || c == '+')) decimalWithUnit

def isPlain (c : Char) : Bool :=
  !(c == '(' || c == ')')

/-- Arguments between brackets, with brackets at most one level deep inside. -/
def arguments : Pattern :=
  all [symbol '(', star (alt (char isPlain) (all [symbol '(', many isPlain, symbol ')'])),
    symbol ')']

def functionCall : Pattern :=
  seq (many1 fun c => isLetter c || c == '-') arguments

def hexDigit : Pattern :=
  char isHexDigit

/-- A pattern at the start of the text or behind a gap. The pattern itself is the first group. -/
def atTokenStart (p : Pattern) : Pattern :=
  seq (alt startOfText (char isGap)) (group 1 p)

end StyleFold.Pattern
