import StyleFold.Text.Ascii

/-!
Text patterns. A pattern is tried in the order in which it is written: an earlier alternative before
a later one, and one more repetition before fewer, or fewer before more where it is reluctant. What
follows the pattern decides whether the next possibility is tried.
-/
namespace StyleFold
open Text

/-- A span is a run of characters of one class. A star repeats a pattern that takes at least one
character. -/
inductive Pattern where
  | empty
  | startOfText
  | endOfText
  | char (accepts : Char → Bool)
  | span (eager : Bool) (accepts : Char → Bool)
  | seq (p q : Pattern)
  | alt (p q : Pattern)
  | star (p : Pattern)
  | group (index : Nat) (p : Pattern)

/-- A place in a text: whether it is the start, the text from there on, and the groups matched so
far, the latest first, each with the text from its start on and from its end on. -/
structure Cursor where
  first : Bool
  rest : List Char
  groups : List (Nat × List Char × List Char)

namespace Cursor

def between (start stop : List Char) : List Char :=
  start.take (start.length - stop.length)

def group? (c : Cursor) (index : Nat) : Option (List Char) :=
  match c.groups.find? fun g => g.1 == index with
  | some (_, start, stop) => some (between start stop)
  | none => none

end Cursor

namespace Pattern

/-- What follows a pattern: it accepts a place with a result, or refuses it. -/
abbrev Continuation (α : Type) :=
  Cursor → Option α

def runSpan {α : Type} (eager : Bool) (accepts : Char → Bool)
    (groups : List (Nat × List Char × List Char)) (next : Continuation α) :
    (atStart : Bool) → List Char → Option α
  | atStart, [] => next ⟨atStart, [], groups⟩
  | atStart, x :: s =>
    let here := Cursor.mk atStart (x :: s) groups
    if accepts x then
      if eager then (runSpan eager accepts groups next false s).orElse fun _ => next here
      else (next here).orElse fun _ => runSpan eager accepts groups next false s
    else next here

def runStar {α : Type} (step : Cursor → Continuation α → Option α) (next : Continuation α) :
    (n : Nat) → Cursor → Option α
  | 0, c => next c
  | n + 1, c => (step c (runStar step next n)).orElse fun _ => next c

/-- The result of the first way to match the pattern at a place that `next` accepts. The bound `n`
on repetitions has no effect where it is not below the length of the text. -/
def run {α : Type} (n : Nat) : Pattern → Cursor → Continuation α → Option α
  | empty, c, next => next c
  | startOfText, c, next => if c.first then next c else none
  | endOfText, c, next => if c.rest.isEmpty then next c else none
  | char accepts, c, next =>
    match c.rest with
    | [] => none
    | x :: s => if accepts x then next ⟨false, s, c.groups⟩ else none
  | span eager accepts, c, next => runSpan eager accepts c.groups next c.first c.rest
  | seq p q, c, next => run n p c fun c => run n q c next
  | alt p q, c, next => (run n p c next).orElse fun _ => run n q c next
  | star p, c, next => runStar (run n p) next n c
  | group index p, c, next =>
    run n p c fun d => next ⟨d.first, d.rest, (index, c.rest, d.rest) :: d.groups⟩

def match? (n : Nat) (p : Pattern) (first : Bool) (s : List Char) : Option Cursor :=
  run n p ⟨first, s, []⟩ some

def many (accepts : Char → Bool) : Pattern :=
  span true accepts

def many1 (accepts : Char → Bool) : Pattern :=
  seq (char accepts) (many accepts)

def few (accepts : Char → Bool) : Pattern :=
  span false accepts

def optional (p : Pattern) : Pattern :=
  alt p empty

def all : List Pattern → Pattern
  | [] => empty
  | [p] => p
  | p :: ps => seq p (all ps)

def any : List Pattern → Pattern
  | [] => char fun _ => false
  | [p] => p
  | p :: ps => alt p (any ps)

def symbol (c : Char) : Pattern :=
  char fun x => x == c

def anyCase (c : Char) : Pattern :=
  char fun x => x.toLower == c.toLower

def word (s : String) : Pattern :=
  all (s.toList.map anyCase)

def insertByLength (w : String) : List String → List String
  | [] => [w]
  | v :: vs => if v.length ≤ w.length then w :: v :: vs else v :: insertByLength w vs

def longestFirst (ws : List String) : List String :=
  ws.foldr insertByLength []

/-- Any of the words in any letter case. A longer word is tried before a shorter one, so that no
word hides another that it begins. -/
def oneOf (ws : List String) : Pattern :=
  any ((longestFirst ws).map word)

/-- The whitespace of patterns, which has the vertical tab besides that of style sheets. -/
def isGap (c : Char) : Bool :=
  isSpace c || c == '\x0b'

end Pattern
end StyleFold
