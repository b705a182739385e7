import StyleFold.Text.Numbered

/-! Text between quotes, with whatever could be misread escaped. -/
namespace StyleFold.Text

def hexDigits (n : Nat) : List Char :=
  Nat.toDigits 16 n

def escaped (mark c : Char) : List Char :=
  match c with
  | '\x00' => ['\\', '0']
  | '\t' => ['\\', 't']
  | '\n' => ['\\', 'n']
  | '\r' => ['\\', 'r']
  | '\\' => ['\\', '\\']
  | _ =>
    if c == mark then ['\\', c]
    else if isNumbered c then "\\u\x7b".toList ++ hexDigits c.toNat ++ ['}']
    else [c]

def quote (s : List Char) : List Char :=
  '"' :: (s.flatMap (escaped '"') ++ ['"'])

def quoteChar (c : Char) : List Char :=
  '\'' :: (escaped '\'' c ++ ['\''])

end StyleFold.Text
