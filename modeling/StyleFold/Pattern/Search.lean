import StyleFold.Pattern.Basic

/-! The matches of a pattern along a text, from left to right and without overlap. -/
namespace StyleFold.Pattern

structure Match where
  text : List Char
  stop : Cursor

namespace Match

def group? (m : Match) (index : Nat) : Option (List Char) :=
  m.stop.group? index

def rest (m : Match) : List Char :=
  m.stop.rest

end Match

/-- A text is made up of matches and of characters outside them. -/
inductive Piece where
  | plain (c : Char)
  | found (m : Match)

/-- The pieces of a text past its first `k` characters, which the last match took. -/
def piecesFrom (n : Nat) (p : Pattern) : (k : Nat) → (first : Bool) → List Char → List Piece
  | _, _, [] => []
  | k + 1, _, _ :: s => piecesFrom n p k false s
  | 0, first, c :: s =>
    match match? n p first (c :: s) with
    | some stop =>
      let text := Cursor.between (c :: s) stop.rest
      .found ⟨text, stop⟩ :: piecesFrom n p (text.length - 1) false s
    | none => .plain c :: piecesFrom n p 0 false s

def pieces (p : Pattern) (s : List Char) : List Piece :=
  piecesFrom s.length p 0 true s

def Piece.match? : Piece → Option Match
  | plain _ => none
  | found m => some m

def matches? (p : Pattern) (s : List Char) : List Match :=
  (pieces p s).filterMap Piece.match?

def find? (p : Pattern) (s : List Char) : Option Match :=
  (matches? p s).head?

def beforeMatch : List Piece → List Char
  | .plain c :: ps => c :: beforeMatch ps
  | _ => []

def Piece.replaced (t : List Char) : Piece → List Char
  | plain c => [c]
  | found _ => t

def replaceAll (p : Pattern) (t s : List Char) : List Char :=
  (pieces p s).flatMap (Piece.replaced t)

end StyleFold.Pattern
