import StyleFold.Declaration.Lookup
import StyleFold.Keyword.Sets
import StyleFold.Pattern.Search
import StyleFold.Pattern.Style
import StyleFold.Text.Words

/-!
The `background` shorthand. Every longhand is recognised by a pattern of its own: the image in the
value, the color in the value without the image, and all the others in the value without its
function calls.
-/
namespace StyleFold

inductive BackgroundSlot where
  | image | position | size | tiling | attachment | origin | clip | color
deriving DecidableEq

namespace BackgroundSlot

def all : List BackgroundSlot :=
  [.image, .position, .size, .tiling, .attachment, .origin, .clip, .color]

def longhand : BackgroundSlot → String
  | image => "background-image"
  | position => "background-position"
  | size => "background-size"
  | tiling => "background-repeat"
  | attachment => "background-attachment"
  | origin => "background-origin"
  | clip => "background-clip"
  | color => "background-color"

end BackgroundSlot

namespace BackgroundShorthand
open Declaration Pattern

def property : String :=
  "background"

def gradient : Pattern :=
  Pattern.all [optional (Pattern.word "repeating-"),
    Pattern.any [Pattern.word "linear", Pattern.word "radial", Pattern.word "conic"],
    Pattern.word "-gradient", arguments]

def image : Pattern :=
  Pattern.any [seq (Pattern.word "url") arguments, gradient, Pattern.word "none"]

def position : Pattern :=
  alt (oneOf (Keyword.words PositionWord)) signedDecimal

def size : Pattern :=
  alt (oneOf (Keyword.words SizeWord)) signedDecimal

def hexColor (n : Nat) : Pattern :=
  Pattern.all (symbol '#' :: List.replicate n hexDigit)

def colorFunction : Pattern :=
  Pattern.all [
    Pattern.any [seq (Pattern.word "rgb") (optional (anyCase 'a')),
      seq (Pattern.word "hsl") (optional (anyCase 'a'))],
    symbol '(', many isPlain, symbol ')']

def color : Pattern :=
  Pattern.any [hexColor 6, hexColor 3, colorFunction, oneOf (namedColors ++ specialColors)]

/-- A token ends before a blank, before a slash, or with the text. -/
def endsToken : List Char → Bool
  | [] => true
  | c :: _ => Text.isBlank c || c == '/'

def token? (m : Match) : Option (List Char) :=
  if endsToken m.rest then m.group? 1 else none

def tokens (p : Pattern) (s : List Char) : List (List Char) :=
  (matches? (atTokenStart p) s).filterMap token?

def firstToken? (p : Pattern) (s : List Char) : Option (List Char) :=
  (tokens p s).head?

def firstTokens? (n : Nat) (p : Pattern) (s : List Char) : Option (List Char) :=
  match (tokens p s).take n with
  | [] => none
  | ts => some (Text.spaced (ts.map String.ofList)).toList

def masked (s : List Char) : List Char :=
  replaceAll functionCall [' '] s

def withoutImage (s : List Char) : List Char :=
  match firstToken? image s with
  | some t => Text.replaceFirst t [' '] s
  | none => s

def boxes (m : List Char) : List (List Char) :=
  tokens (oneOf (Keyword.words BoxEdge)) m

/-- The text of a slot in the value `s` that is `m` without its function calls. A size follows a
slash. A single box is both origin and clip. -/
def slotText? (s m : List Char) : BackgroundSlot → Option (List Char)
  | .image => firstToken? image s
  | .position => firstTokens? 4 position (Text.beforeFirst '/' m)
  | .size => (Text.afterFirst? '/' m).bind (firstTokens? 2 size)
  | .tiling => firstTokens? 2 (oneOf (Keyword.words RepeatStyle)) m
  | .attachment => firstToken? (oneOf (Keyword.words Attachment)) m
  | .origin => (boxes m).head?
  | .clip => (boxes m)[1]?.or (boxes m).head?
  | .color => firstToken? color (withoutImage s)

def orInitial : Option (List Char) → String
  | some s => String.ofList s
  | none => initial

def slotLonghands (s m : List Char) : List Declaration :=
  BackgroundSlot.all.map fun slot => Declaration.of slot.longhand (orInitial (slotText? s m slot))

def longhands (value : String) : List Declaration :=
  slotLonghands value.toList (masked value.toList)

def selected (policy : DuplicatePolicy) (ds : List Declaration) :
    List BackgroundSlot → Result (List (BackgroundSlot × Declaration))
  | [] => .ok []
  | slot :: slots => do
    let d ← require policy property slot.longhand ds
    let rest ← selected policy ds slots
    .ok ((slot, d) :: rest)

def given? (found : List (BackgroundSlot × Declaration)) (slot : BackgroundSlot) :
    Option String :=
  match found.find? fun (s, _) => s = slot with
  | some (_, d) => if d.isInitial then none else some d.trimmedValue
  | none => none

/-- A size needs a position before it. -/
def placement : Option String → Option String → List String
  | position, some size => [position.getD "0% 0%", "/", size]
  | some position, none => [position]
  | none, none => []

/-- Where origin and clip differ both are written, and equal ones once. -/
def boxWords : Option String → Option String → List String
  | none, none => []
  | some origin, some clip =>
    if Text.sameWord origin.toList clip.toList then [origin] else [origin, clip]
  | origin, clip => [origin.getD "padding-box", clip.getD "border-box"]

def parts (given : BackgroundSlot → Option String) : List String :=
  (given .image).toList ++ placement (given .position) (given .size) ++ (given .tiling).toList ++
    (given .attachment).toList ++ boxWords (given .origin) (given .clip) ++ (given .color).toList

def collapse (policy : DuplicatePolicy) (ds : List Declaration) : Result Declaration := do
  let found ← selected policy ds BackgroundSlot.all
  let important ← sharedPriority property (found.map Prod.snd)
  let value :=
    match parts (given? found) with
    | [] => initial
    | ps => Text.spaced ps
  .ok ((Declaration.of property value).withPriority important)

end BackgroundShorthand
end StyleFold
