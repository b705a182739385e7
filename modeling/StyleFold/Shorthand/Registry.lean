import StyleFold.Shorthand.Basic

/-! What is found under property names, such as the shorthands that convert them. -/
namespace StyleFold

/-- Names in lower case with what stands under them, in ascending order of the names. -/
structure Registry (α : Type) where
  entries : List (String × α)
deriving DecidableEq

namespace Registry
open Declaration (lowercase)

variable {α : Type}

def empty : Registry α :=
  ⟨[]⟩

def insert (name : String) (a : α) : List (String × α) → List (String × α) × Option α
  | [] => ([(name, a)], none)
  | (n, b) :: es =>
    if name = n then ((name, a) :: es, some b)
    else if name < n then ((name, a) :: (n, b) :: es, none)
    else
      let (rest, replaced) := insert name a es
      ((n, b) :: rest, replaced)

def get? (r : Registry α) (name : String) : Option α :=
  (r.entries.find? fun e => e.1 = lowercase name).map Prod.snd

def contains (r : Registry α) (name : String) : Bool :=
  r.entries.any fun e => e.1 = lowercase name

def register (r : Registry α) (name : String) (a : α) : Registry α × Option α :=
  let (es, replaced) := insert (lowercase name) a r.entries
  (⟨es⟩, replaced)

def names (r : Registry α) : List String :=
  r.entries.map Prod.fst

def ofList (ss : List Shorthand) : Registry Shorthand :=
  ss.foldl (fun r s => (r.register s.property s).1) empty

def builtIn (duplicates : DuplicatePolicy) : Registry Shorthand :=
  ofList (Shorthand.builtIn duplicates)

def quotedNames : List String → String
  | [] => ""
  | [n] => String.ofList (Text.quote n.toList)
  | n :: ns => String.ofList (Text.quote n.toList) ++ ", " ++ quotedNames ns

def describe (r : Registry α) : String :=
  "Registry \x7b properties: [" ++ quotedNames r.names ++ "] \x7d"

end Registry
end StyleFold
