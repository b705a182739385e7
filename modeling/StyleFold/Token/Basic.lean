import StyleFold.Token.Numeral

/-! The tokens of style sheet text. -/
namespace StyleFold

inductive Bracket where
  | round | square | curly
deriving DecidableEq

/-- Names and contents are held with their escapes resolved. A function stands for its name and the
bracket that opens its arguments. -/
inductive Token where
  | ident (name : List Char)
  | atKeyword (name : List Char)
  | hash (name : List Char)
  | idHash (name : List Char)
  | quoted (content : List Char)
  | badQuoted (content : List Char)
  | url (address : List Char)
  | badUrl (source : List Char)
  | function (name : List Char)
  | number (n : Numeral)
  | percentage (n : Numeral)
  | dimension (n : Numeral) (unit : List Char)
  | whitespace
  | comment
  | delim (c : Char)
  | colon
  | semicolon
  | comma
  | includeMatch
  | dashMatch
  | prefixMatch
  | suffixMatch
  | substringMatch
  | commentOpen
  | commentClose
  | opening (b : Bracket)
  | closing (b : Bracket)
deriving DecidableEq

namespace Token

def opens : Token → Option Bracket
  | function _ => some .round
  | opening b => some b
  | _ => none

def isTrivia : Token → Bool
  | whitespace | comment => true
  | _ => false

end Token
end StyleFold
