/-! Words set next to each other, and the first occurrence of a text in another. -/
namespace StyleFold.Text

def spaced : List String → String
  | [] => ""
  | [s] => s
  | s :: ss => s ++ " " ++ spaced ss

def replaceFirst (t u : List Char) : List Char → List Char
  | [] => []
  | c :: s =>
    if t.isPrefixOf (c :: s) then u ++ (c :: s).drop t.length else c :: replaceFirst t u s

def beforeFirst (c : Char) (s : List Char) : List Char :=
  s.takeWhile (· != c)

def afterFirst? (c : Char) (s : List Char) : Option (List Char) :=
  match s.dropWhile (· != c) with
  | [] => none
  | _ :: t => some t

end StyleFold.Text
