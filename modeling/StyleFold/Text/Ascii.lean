/-! Character classes of style sheet text, and comparison of words without regard to letter case. -/
namespace StyleFold.Text

/-- A line ends at a line feed, a carriage return or a form feed. -/
def isNewline (c : Char) : Bool :=
  c == '\n' || c == '\r' || c == '\x0c'

def isSpace (c : Char) : Bool :=
  c == ' ' || c == '\t' || isNewline c

def isDigit (c : Char) : Bool :=
  '0' ≤ c && c ≤ '9'

def isLetter (c : Char) : Bool :=
  ('a' ≤ c && c ≤ 'z') || ('A' ≤ c && c ≤ 'Z')

def isHexDigit (c : Char) : Bool :=
  isDigit c || ('a' ≤ c && c ≤ 'f') || ('A' ≤ c && c ≤ 'F')

def isAscii (c : Char) : Bool :=
  c.toNat < 128

def hexValue (c : Char) : Nat :=
  if isDigit c then c.toNat - 48 else c.toLower.toNat - 87

/-- Only the letters `A` to `Z` have another case here. -/
def lower (s : List Char) : List Char :=
  s.map Char.toLower

def sameWord (s t : List Char) : Bool :=
  lower s == lower t

theorem lower_append (s t : List Char) : lower (s ++ t) = lower s ++ lower t :=
  List.map_append

theorem sameWord_iff {s t : List Char} : sameWord s t = true ↔ lower s = lower t :=
  beq_iff_eq

def spanLength (p : Char → Bool) (s : List Char) : Nat :=
  (s.takeWhile p).length

end StyleFold.Text
