import StyleFold.Token.Basic
import StyleFold.Text.Quoted
import StyleFold.Number.Layout

/-! How a token is named in an error message. -/
namespace StyleFold.Token
open Text

def integerText : Option Int → String
  | none => "None"
  | some n => s!"Some({n})"

def numericFields (n : Numeral) (label : String) (x : Number.Magnitude) : String :=
  "has_sign: " ++ toString n.sign.isSome ++ ", " ++ label ++ ": " ++
    String.ofList (Number.text Number.single n.isNegative x) ++
    ", int_value: " ++ integerText n.integer?

def fields (kind body : String) : String :=
  kind ++ " \x7b " ++ body ++ " \x7d"

def named (kind : String) (content : List Char) : String :=
  kind ++ "(" ++ String.ofList (quote content) ++ ")"

def bracketName : Bracket → String
  | .round => "Parenthesis"
  | .square => "SquareBracket"
  | .curly => "CurlyBracket"

def describe : Token → String
  | ident s => named "Ident" s
  | atKeyword s => named "AtKeyword" s
  | hash s => named "Hash" s
  | idHash s => named "IDHash" s
  | quoted s => named "QuotedString" s
  | badQuoted s => named "BadString" s
  | url s => named "UnquotedUrl" s
  | badUrl s => named "BadUrl" s
  | function s => named "Function" s
  | number n => fields "Number" (numericFields n "value" n.value)
  | percentage n => fields "Percentage" (numericFields n "unit_value" n.ratio)
  | dimension n unit =>
    fields "Dimension"
      (numericFields n "value" n.value ++ ", unit: " ++ String.ofList (quote unit))
  | whitespace => "WhiteSpace"
  | comment => "Comment"
  | delim c => "Delim(" ++ String.ofList (quoteChar c) ++ ")"
  | colon => "Colon"
  | semicolon => "Semicolon"
  | comma => "Comma"
  | includeMatch => "IncludeMatch"
  | dashMatch => "DashMatch"
  | prefixMatch => "PrefixMatch"
  | suffixMatch => "SuffixMatch"
  | substringMatch => "SubstringMatch"
  | commentOpen => "CDO"
  | commentClose => "CDC"
  | opening b => bracketName b ++ "Block"
  | closing b => "Close" ++ bracketName b

end StyleFold.Token
