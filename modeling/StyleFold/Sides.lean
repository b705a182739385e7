/-! The four sides of a box, and the lists of one to four values that stand for all of them. -/
namespace StyleFold

inductive Side where
  | top | right | bottom | left
deriving DecidableEq

namespace Side

def all : List Side :=
  [.top, .right, .bottom, .left]

def name : Side → String
  | top => "top"
  | right => "right"
  | bottom => "bottom"
  | left => "left"

end Side

structure Sides (α : Type u) where
  top : α
  right : α
  bottom : α
  left : α
deriving DecidableEq

namespace Sides
variable {α : Type u}

def get (s : Sides α) : Side → α
  | .top => s.top
  | .right => s.right
  | .bottom => s.bottom
  | .left => s.left

def toList (s : Sides α) : List α :=
  [s.top, s.right, s.bottom, s.left]

/-- A missing left side is the right one, a missing bottom the top, a missing right the top. -/
def ofList? : List α → Option (Sides α)
  | [a] => some ⟨a, a, a, a⟩
  | [a, b] => some ⟨a, b, a, b⟩
  | [a, b, c] => some ⟨a, b, c, b⟩
  | [a, b, c, d] => some ⟨a, b, c, d⟩
  | _ => none

/-- One value where all sides agree, two where opposite sides do, and all four otherwise. -/
def collapse [DecidableEq α] (s : Sides α) : List α :=
  if s.top = s.bottom ∧ s.right = s.left then
    if s.top = s.right then [s.top] else [s.top, s.right]
  else s.toList

end Sides
end StyleFold
