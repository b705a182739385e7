import StyleFold.Token.Scan

/-!
Text cut into lexemes, and the brackets that stay open along a list of them. The sources of the
lexemes of a text add up to the text.
-/
namespace StyleFold

structure Lexeme where
  token : Token
  source : List Char
deriving DecidableEq

namespace Lexeme

def lexFrom : (k : Nat) → List Char → List Lexeme
  | _, [] => []
  | k + 1, _ :: s => lexFrom k s
  | 0, c :: s =>
    let (token, n) := Token.scan c s
    ⟨token, c :: s.take n⟩ :: lexFrom n s

def lex (s : List Char) : List Lexeme :=
  lexFrom 0 s

def text (ls : List Lexeme) : List Char :=
  ls.flatMap source

@[simp] theorem text_nil : text [] = [] :=
  rfl

@[simp] theorem text_cons (l : Lexeme) (ls : List Lexeme) : text (l :: ls) = l.source ++ text ls :=
  rfl

theorem text_append (l m : List Lexeme) : text (l ++ m) = text l ++ text m :=
  List.flatMap_append

theorem text_lexFrom (k : Nat) (s : List Char) : text (lexFrom k s) = s.drop k := by
  induction s generalizing k with
  | nil => cases k <;> simp [lexFrom]
  | cons c s ih =>
    cases k with
    | zero => simp [lexFrom, ih]
    | succ k => simpa [lexFrom] using ih k

theorem text_lex (s : List Char) : text (lex s) = s := by
  simp [lex, text_lexFrom]

theorem lexFrom_eq_lex (k : Nat) (s : List Char) : lexFrom k s = lex (s.drop k) := by
  induction s generalizing k with
  | nil => cases k <;> rfl
  | cons c s ih =>
    cases k with
    | zero => rfl
    | succ k => simpa [lexFrom] using ih k

theorem lex_cons (c : Char) (s : List Char) :
    lex (c :: s) =
      ⟨(Token.scan c s).1, c :: s.take (Token.scan c s).2⟩ :: lex (s.drop (Token.scan c s).2) := by
  rw [← lexFrom_eq_lex]
  rfl

def isTrivia (l : Lexeme) : Bool :=
  l.token.isTrivia

def isWhitespace (l : Lexeme) : Bool :=
  l.token == .whitespace

theorem isWhitespace_iff {l : Lexeme} : l.isWhitespace = true ↔ l.token = .whitespace :=
  beq_iff_eq

theorem isTrivia_iff {l : Lexeme} :
    l.isTrivia = true ↔ l.token = .comment ∨ l.token = .whitespace := by
  obtain ⟨t, w⟩ := l
  cases t <;> simp [isTrivia, Token.isTrivia]

def leadingTrivia (ls : List Lexeme) : List Lexeme :=
  ls.takeWhile isTrivia

def afterTrivia (ls : List Lexeme) : List Lexeme :=
  ls.dropWhile isTrivia

/-- The open brackets behind a token, innermost first. A closing bracket that does not fit the
innermost open one has no effect. -/
def nest (stack : List Bracket) (t : Token) : List Bracket :=
  match t.opens with
  | some b => b :: stack
  | none =>
    match t, stack with
    | .closing b, c :: outer => if b = c then outer else stack
    | _, _ => stack

/-- The lexemes before the first one outside all brackets that `p` accepts. -/
def before (p : Token → Bool) : List Bracket → List Lexeme → List Lexeme
  | _, [] => []
  | stack, l :: ls =>
    if stack.isEmpty && p l.token then [] else l :: before p (nest stack l.token) ls

def onward (p : Token → Bool) : List Bracket → List Lexeme → List Lexeme
  | _, [] => []
  | stack, l :: ls =>
    if stack.isEmpty && p l.token then l :: ls else onward p (nest stack l.token) ls

def afterBlock : List Bracket → List Lexeme → List Lexeme
  | _, [] => []
  | [], ls => ls
  | stack, l :: ls => afterBlock (nest stack l.token) ls

end Lexeme
end StyleFold
