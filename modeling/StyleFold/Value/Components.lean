import StyleFold.Token.Lexeme

/-!
The components of a value: the runs of text between the whitespace that lies outside all brackets
and strings. Comments at the end of a run that whitespace ends are left out.
-/
namespace StyleFold.Value

def runs : List Bracket → List Lexeme → List (List Lexeme)
  | _, [] => [[]]
  | stack, l :: ls =>
    if stack.isEmpty && l.isWhitespace then [] :: runs [] ls
    else
      match runs (Lexeme.nest stack l.token) ls with
      | [] => [[l]]
      | r :: rs => (l :: r) :: rs

def isComment (l : Lexeme) : Bool :=
  l.token == .comment

def dropTrailingComments (ls : List Lexeme) : List Lexeme :=
  (ls.reverse.dropWhile isComment).reverse

/-- Runs of comments alone are no components. The last run keeps the comments at its end. -/
def trimmedRuns : List (List Lexeme) → List (List Lexeme)
  | [] => []
  | [r] => if r.all isComment then [] else [r]
  | r :: rs =>
    match dropTrailingComments r with
    | [] => trimmedRuns rs
    | r => r :: trimmedRuns rs

def components (s : List Char) : List (List Char) :=
  (trimmedRuns (runs [] (Lexeme.lex s))).map Lexeme.text

def split (value : String) : List String :=
  (components value.toList).map String.ofList

end StyleFold.Value
