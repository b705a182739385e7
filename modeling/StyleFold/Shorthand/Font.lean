import StyleFold.Declaration.Lookup
import StyleFold.Keyword.Sets
import StyleFold.Pattern.Search
import StyleFold.Pattern.Style
import StyleFold.Text.Words

/-!
The `font` shorthand. One pattern covers the whole value and has a group for every longhand. A
value that does not match has no longhands.
-/
namespace StyleFold

inductive FontSlot where
  | style | variant | weight | size | height | family | system
deriving DecidableEq

namespace FontSlot

def all : List FontSlot :=
  [.style, .variant, .weight, .size, .height, .family, .system]

def longhand : FontSlot → String
  | style => "font-style"
  | variant => "font-variant"
  | weight => "font-weight"
  | size => "font-size"
  | height => "font-height"
  | family => "font-family"
  | system => "font-values"

def group : FontSlot → Nat
  | style => 1
  | variant => 2
  | weight => 3
  | size => 4
  | height => 5
  | family => 6
  | system => 7

end FontSlot

namespace FontShorthand
open Declaration Pattern Text

def property : String :=
  "font"

/-- The words that every slot takes besides its own. -/
def global : Pattern :=
  alt (Pattern.word "initial") (Pattern.word "inherit")

def nameWord : Pattern :=
  seq (char fun c => isLetter c || c == '-') (many fun c => isLetter c || isDigit c || c == '-')

def quotedName (mark : Char) : Pattern :=
  Pattern.all [symbol mark, many (· != mark), symbol mark]

def familyName : Pattern :=
  Pattern.any [quotedName '"', quotedName '\'', seq nameWord (star (seq (many1 isGap) nameWord))]

def slot : FontSlot → Pattern
  | .style => alt (oneOf (Keyword.words FontStyle)) global
  | .variant => alt (oneOf (Keyword.words FontVariant)) global
  | .weight => Pattern.any [oneOf (Keyword.words FontWeight), global, many1 isDigit]
  | .size => Pattern.any [oneOf (Keyword.words FontSizeWord), global, decimalWithUnit]
  | .height => Pattern.any [Pattern.word "normal", global, decimalWithUnit]
  | .family =>
    alt global
      (seq familyName (star (Pattern.all [many isGap, symbol ',', many isGap, familyName])))
  | .system => alt (oneOf (Keyword.words SystemFont)) global

def slotGroup (s : FontSlot) : Pattern :=
  group s.group (slot s)

def leading (s : FontSlot) : Pattern :=
  optional (seq (slotGroup s) (many1 isGap))

/-- Style, variant and weight, the size with a line height behind a slash, and the family, or else a
system font. -/
def value : Pattern :=
  Pattern.all [startOfText, many isGap,
    alt
      (Pattern.all [leading .style, leading .variant, leading .weight, slotGroup .size,
        optional (Pattern.all [many isGap, symbol '/', many isGap, slotGroup .height]), many1 isGap,
        slotGroup .family])
      (slotGroup .system),
    many isGap, endOfText]

def slotValue (m : Cursor) (s : FontSlot) : String :=
  match m.group? s.group with
  | some t => String.ofList t
  | none => initial

def longhands (v : String) : List Declaration :=
  match match? v.toList.length value true v.toList with
  | none => []
  | some m => FontSlot.all.map fun s => Declaration.of s.longhand (slotValue m s)

/-- The declaration of a slot. The line height may also go by its standard name. -/
def declared (policy : DuplicatePolicy) (ds : List Declaration) : FontSlot → Result Declaration
  | .height => do
    match ← find policy FontSlot.height.longhand ds with
    | some d => .ok d
    | none =>
      match ← find policy "line-height" ds with
      | some d => .ok d
      | none => .error (.missingLonghand property FontSlot.height.longhand)
  | s => require policy property s.longhand ds

def selected (policy : DuplicatePolicy) (ds : List Declaration) :
    List FontSlot → Result (List (FontSlot × Declaration))
  | [] => .ok []
  | s :: slots => do
    let d ← declared policy ds s
    let rest ← selected policy ds slots
    .ok ((s, d) :: rest)

def found? (found : List (FontSlot × Declaration)) (s : FontSlot) : Option Declaration :=
  match found.find? fun (t, _) => t = s with
  | some (_, d) => some d
  | none => none

def given? (found : List (FontSlot × Declaration)) (s : FontSlot) : Option String :=
  match found? found s with
  | some d => if d.isInitial then none else some d.trimmedValue
  | none => none

/-- The size, with the line height behind a slash. A line height alone has no place. -/
def sizeWords (found : List (FontSlot × Declaration)) : Result (List String) :=
  match given? found .size, given? found .height with
  | some size, some height => .ok [size ++ "/" ++ height]
  | some size, none => .ok [size]
  | none, some _ =>
    let name := ((found? found .height).map Declaration.property).getD FontSlot.height.longhand
    .error (.invalidValue name .heightWithoutSize)
  | none, none => .ok []

def collapse (policy : DuplicatePolicy) (ds : List Declaration) : Result Declaration := do
  let found ← selected policy ds FontSlot.all
  let important ← sharedPriority property (found.map Prod.snd)
  let words ← sizeWords found
  let given := fun s => (given? found s).toList
  let parts :=
    given .style ++ given .variant ++ given .weight ++ words ++ given .family ++ given .system
  let value :=
    match parts with
    | [] => initial
    | ps => spaced ps
  .ok ((Declaration.of property value).withPriority important)

end FontShorthand
end StyleFold
