import StyleFold.Declaration.Lookup
import StyleFold.Token.Lexeme

/-!
Declaration lists read token by token. Items end at the semicolons outside all brackets, and the
first item that is no declaration fails the whole list.
-/
namespace StyleFold.Reader.Strict
open Text Lexeme

structure Item where
  lexemes : List Lexeme
  ended : Bool
deriving DecidableEq

def isSemicolon (t : Token) : Bool :=
  t == .semicolon

def isBang (t : Token) : Bool :=
  t == .delim '!'

theorem isSemicolon_iff {t : Token} : isSemicolon t = true ↔ t = .semicolon :=
  beq_iff_eq

theorem isBang_iff {t : Token} : isBang t = true ↔ t = .delim '!' :=
  beq_iff_eq

def isCurly (t : Token) : Bool :=
  t == .opening .curly

/-- The items of a list. The last one is what follows the last semicolon outside all brackets. -/
def items : List Bracket → List Lexeme → List Item
  | _, [] => [⟨[], false⟩]
  | stack, l :: ls =>
    if stack.isEmpty && isSemicolon l.token then ⟨[], true⟩ :: items [] ls
    else
      match items (nest stack l.token) ls with
      | [] => [⟨[l], false⟩]
      | i :: is => { i with lexemes := l :: i.lexemes } :: is

def endText (ended : Bool) : List Char :=
  if ended then [';'] else []

def Item.source (i : Item) : List Char :=
  text i.lexemes ++ endText i.ended

/-- Before an item stand comments, whitespace and stray closing braces. -/
def isPadding (l : Lexeme) : Bool :=
  l.isTrivia || l.token == .closing .curly

abbrev Checked (α : Type) :=
  Except (Flaw × Location) α

/-- Behind the value stands nothing, or an exclamation mark and the word `important`. -/
def priority (l : Location) : List Lexeme → Checked Bool
  | [] => .ok false
  | bang :: ls =>
    match afterTrivia ls with
    | ⟨.ident word, source⟩ :: rest =>
      if sameWord word "important".toList then
        match afterTrivia rest with
        | [] => .ok true
        | next :: _ =>
          let gap := text (leadingTrivia ls)
          .error (.unexpected next.token, l.advance (bang.source ++ gap ++ source))
      else .error (.unexpected bang.token, l)
    | _ => .error (.unexpected bang.token, l)

def body (l : Location) (ls : List Lexeme) : Checked (List Char × Bool) := do
  let value := text (before isBang [] ls)
  let l := l.advance value
  if (trim value).isEmpty then .error (.emptyValue, l)
  else
    let important ← priority l (onward isBang [] ls)
    .ok (trim value, important)

def declaration (l : Location) (name : List Char) (ls : List Lexeme) : Checked Declaration :=
  let gap := text (leadingTrivia ls)
  match afterTrivia ls with
  | [] => .error (.endOfInput, l.advance gap)
  | ⟨.colon, source⟩ :: rest => do
    let (value, important) ← body (l.advance (gap ++ source)) rest
    .ok ((Declaration.of (String.ofList name) (String.ofList value)).withPriority important)
  | next :: _ => .error (.unexpected next.token, l)

def fail {α : Type} (source : List Char) : Flaw × Location → Result α
  | (flaw, l) => .error (.malformed flaw (String.ofList (trim source)) l)

def item (l : Location) (i : Item) : Result (Option Declaration) :=
  let l := l.advance (text (i.lexemes.takeWhile isPadding))
  let rest := i.lexemes.dropWhile isPadding
  let source := text rest ++ endText i.ended
  match rest with
  | [] => .ok none
  | ⟨.ident name, word⟩ :: ls =>
    match declaration (l.advance word) name ls with
    | .ok d => .ok (some d)
    | .error e => fail source e
  | ⟨.atKeyword name, word⟩ :: ls =>
    fail (word ++ text (before isCurly [] ls)) (.atRule name, l.advance word)
  | first :: _ => fail source (.unexpected first.token, l)

def collect (l : Location) : List Item → Result (List Declaration)
  | [] => .ok []
  | i :: is => do
    let d ← item l i
    let ds ← collect (l.advance i.source) is
    .ok (d.toList ++ ds)

def read (s : String) : Result (List Declaration) :=
  collect .start (items [] (lex s.toList))

end StyleFold.Reader.Strict
