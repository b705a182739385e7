import StyleFold.Declaration.Basic
import StyleFold.Pattern.Search

/-! Declaration lists read by a pattern. Whatever the pattern passes over is skipped. -/
namespace StyleFold.Reader.Lenient
open Text Pattern

/-- A name, a colon, a value without semicolons and the semicolon or the end of the text. -/
def declarationPattern : Pattern :=
  Pattern.all [
    group 1 (many1 fun c => isLetter c || c == '-'), many isGap, symbol ':', many isGap,
    group 2 (few (· != ';')), many isGap, alt (symbol ';') endOfText]

def importantPattern : Pattern :=
  Pattern.all [many isGap, symbol '!', many isGap, Pattern.word "important", endOfText]

def splitPriority (value : List Char) : List Char × Bool :=
  let ps := pieces importantPattern value
  (beforeMatch ps, ps.any fun piece => piece.match?.isSome)

def toDeclaration (m : Match) : Declaration :=
  let (value, important) := splitPriority ((m.group? 2).getD [])
  (Declaration.of (String.ofList ((m.group? 1).getD []))
    (String.ofList (trim value))).withPriority important

def read (s : String) : List Declaration :=
  (matches? declarationPattern s.toList).map toDeclaration

end StyleFold.Reader.Lenient
