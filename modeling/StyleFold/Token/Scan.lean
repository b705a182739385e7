import StyleFold.Token.Basic

/-!
The token at the front of a text. A scanner returns what it read together with the number of
characters that belong to it, so that nothing of the text is lost.
-/
namespace StyleFold.Token
open Text

def replacement : Char := '\uFFFD'

def isNameStart (c : Char) : Bool :=
  isLetter c || c == '_' || c == '\x00' || !isAscii c

def isNameChar (c : Char) : Bool :=
  isNameStart c || isDigit c || c == '-'

def startsNewline : List Char → Bool
  | c :: _ => isNewline c
  | [] => false

/-- An escape may begin a name unless a newline follows the backslash. Behind a hyphen every
backslash begins one. -/
def startsName : List Char → Bool
  | '-' :: c :: _ => isNameStart c || c == '-' || c == '\\'
  | '\\' :: s => !startsNewline s
  | c :: _ => isNameStart c
  | [] => false

def clean (c : Char) : Char :=
  if c == '\x00' then replacement else c

/-- A surrogate, a number past the last code point and zero have no character. -/
def scalar (n : Nat) : Char :=
  if n = 0 then replacement else if n.isValidChar then Char.ofNat n else replacement

def spaceLength : List Char → Nat
  | '\r' :: '\n' :: _ => 2
  | c :: _ => if isSpace c then 1 else 0
  | [] => 0

/-- The character that is escaped behind a backslash: up to six hexadecimal digits and one space, or
the character itself. -/
def escape : List Char → Char × Nat
  | [] => (replacement, 0)
  | c :: s =>
    if isHexDigit c then
      let digits := ((c :: s).take 6).takeWhile isHexDigit
      let n := digits.foldl (fun n d => 16 * n + hexValue d) 0
      (scalar n, digits.length + spaceLength ((c :: s).drop digits.length))
    else (clean c, 1)

/-- What a scanner read: the content, whether it is well formed, and the characters it took. -/
structure Extent where
  content : List Char
  good : Bool
  length : Nat

namespace Extent

def stop (good : Bool) (length : Nat) : Extent := ⟨[], good, length⟩

def skip (e : Extent) : Extent := { e with length := e.length + 1 }

def cons (c : Char) (e : Extent) : Extent := ⟨c :: e.content, e.good, e.length + 1⟩

end Extent

/-- The name at the front of the text, past the `k` characters that an escape has already read. -/
def name : (k : Nat) → List Char → Extent
  | _, [] => .stop true 0
  | k + 1, _ :: s => (name k s).skip
  | 0, c :: s =>
    if c == '\\' then
      if startsNewline s then .stop true 0
      else (name (escape s).2 s).cons (escape s).1
    else if isNameChar c then (name 0 s).cons (clean c)
    else .stop true 0

/-- The rest of a string that `q` closes. A newline breaks it off, an escaped newline is left out,
and the end of the text closes it. -/
def stringBody (q : Char) : (k : Nat) → List Char → Extent
  | _, [] => .stop true 0
  | k + 1, _ :: s => (stringBody q k s).skip
  | 0, c :: s =>
    if c == q then .stop true 1
    else if isNewline c then .stop false 0
    else if c == '\\' then
      if s.isEmpty then .stop true 1
      else if startsNewline s then (stringBody q (spaceLength s) s).skip
      else (stringBody q (escape s).2 s).cons (escape s).1
    else (stringBody q 0 s).cons (clean c)

def isUrlBreaker (c : Char) : Bool :=
  let n := c.toNat
  c == '"' || c == '\'' || c == '(' || (1 ≤ n && n ≤ 8) || n == 11 || (14 ≤ n && n ≤ 31) ||
    n == 127

def urlEnd (s : List Char) : Extent :=
  let n := spanLength isSpace s
  match s.drop n with
  | [] => .stop true n
  | c :: _ => .stop (c == ')') (n + 1)

def urlBody : (k : Nat) → List Char → Extent
  | _, [] => .stop true 0
  | k + 1, _ :: s => (urlBody k s).skip
  | 0, c :: s =>
    if c == ')' then .stop true 1
    else if isSpace c then (urlEnd s).skip
    else if isUrlBreaker c then .stop false 1
    else if c == '\\' then
      if startsNewline s then .stop false 1
      else (urlBody (escape s).2 s).cons (escape s).1
    else (urlBody 0 s).cons (clean c)

/-- A spoilt address runs up to the next closing bracket that no backslash precedes. -/
def spoiltLength : List Char → Nat
  | [] => 0
  | ')' :: _ => 0
  | '\\' :: ')' :: s => spoiltLength s + 2
  | '\\' :: '\\' :: s => spoiltLength s + 2
  | _ :: s => spoiltLength s + 1

def closeLength : List Char → Nat
  | ')' :: _ => 1
  | _ => 0

def urlAddress (s : List Char) : Option (Token × Nat) :=
  let lead := spanLength isSpace s
  match s.drop lead with
  | [] => some (.url [], lead)
  | c :: r =>
    if c == '"' || c == '\'' then none
    else
      let body := urlBody 0 (c :: r)
      if body.good then some (.url body.content, lead + body.length)
      else
        let n := body.length + spoiltLength ((c :: r).drop body.length)
        some (.badUrl ((c :: r).take n), lead + n + closeLength ((c :: r).drop n))

def nameLike (s : List Char) : Token × Nat :=
  let word := name 0 s
  match s.drop word.length with
  | '(' :: r =>
    let call := (.function word.content, word.length + 1)
    if sameWord word.content ['u', 'r', 'l'] then
      match urlAddress r with
      | some (t, n) => (t, word.length + 1 + n)
      | none => call
    else call
  | _ => (.ident word.content, word.length)

def numeric (s : List Char) : Token × Nat :=
  let (n, length) := Numeral.read s
  match s.drop length with
  | '%' :: _ => (.percentage n, length + 1)
  | r =>
    if startsName r then
      let unit := name 0 r
      (.dimension n unit.content, length + unit.length)
    else (.number n, length)

def commentLength : List Char → Nat
  | [] => 0
  | '*' :: '/' :: _ => 2
  | _ :: s => commentLength s + 1

def matchOperator (c : Char) (t : Token) : List Char → Token × Nat
  | '=' :: _ => (t, 1)
  | _ => (.delim c, 0)

def tailOf (x : Token × Nat) : Token × Nat :=
  (x.1, x.2 - 1)

/-- The token that begins with `c`, and how many of the characters behind `c` belong to it. -/
def scan (c : Char) (s : List Char) : Token × Nat :=
  if isSpace c then (.whitespace, spanLength isSpace s)
  else if isDigit c then tailOf (numeric (c :: s))
  else if isNameStart c then tailOf (nameLike (c :: s))
  else match c with
  | '"' | '\'' =>
    let body := stringBody c 0 s
    (if body.good then .quoted body.content else .badQuoted body.content, body.length)
  | '#' =>
    if startsName s then let word := name 0 s; (.idHash word.content, word.length)
    else match s with
    | d :: _ =>
      if isDigit d || d == '-' then let word := name 0 s; (.hash word.content, word.length)
      else (.delim c, 0)
    | [] => (.delim c, 0)
  | '@' =>
    if startsName s then let word := name 0 s; (.atKeyword word.content, word.length)
    else (.delim c, 0)
  | '+' | '.' => if Numeral.starts (c :: s) then tailOf (numeric (c :: s)) else (.delim c, 0)
  | '-' =>
    if Numeral.starts (c :: s) then tailOf (numeric (c :: s))
    else if ['-', '>'].isPrefixOf s then (.commentClose, 2)
    else if startsName (c :: s) then tailOf (nameLike (c :: s))
    else (.delim c, 0)
  | '\\' => if startsName (c :: s) then tailOf (nameLike (c :: s)) else (.delim c, 0)
  | '/' =>
    match s with
    | '*' :: r => (.comment, 1 + commentLength r)
    | _ => (.delim c, 0)
  | '<' => if ['!', '-', '-'].isPrefixOf s then (.commentOpen, 3) else (.delim c, 0)
  | '$' => matchOperator c .suffixMatch s
  | '*' => matchOperator c .substringMatch s
  | '^' => matchOperator c .prefixMatch s
  | '|' => matchOperator c .dashMatch s
  | '~' => matchOperator c .includeMatch s
  | '(' => (.opening .round, 0)
  | '[' => (.opening .square, 0)
  | '{' => (.opening .curly, 0)
  | ')' => (.closing .round, 0)
  | ']' => (.closing .square, 0)
  | '}' => (.closing .curly, 0)
  | ':' => (.colon, 0)
  | ';' => (.semicolon, 0)
  | ',' => (.comma, 0)
  | _ => (.delim c, 0)

end StyleFold.Token
