import StyleFold.Converter

/-! A sequence of steps on a converter, a text and a list of declarations. -/
namespace StyleFold

/-- The registry that all sessions share is present only where the session works on it. -/
structure Session where
  converter : Converter
  text : String
  list : List Declaration
  shared : Option (Registry Shorthand)

inductive Step where
  | setText (text : String)
  | read
  | print
  | expand
  | collapse (shorthand : String)
  | expandList
  | collapseList (shorthand : String)
  | append (ds : List Declaration)
  | remove (property : String)
  | reverse
  | find (policy : DuplicatePolicy) (property : String)
  | require (policy : DuplicatePolicy) (shorthand property : String)
  | configure (settings : Settings) (keepRegistry : Bool)
  | register (name : String) (shorthand : Shorthand)
  | lookUp (name : String)
  | contains (name : String)
  | names
  | describe

inductive Answer where
  | nothing
  | done
  | count (n : Nat)
  | truth (b : Bool)
  | name (s : String)
  | names (ss : List String)
  | declaration (d : Declaration)
  | settings (s : Settings)

namespace Session

def ofConverter (c : Converter) : Session :=
  ⟨c, "", [], none⟩

def onShared (s : Settings) (r : Registry Shorthand) : Session :=
  ⟨⟨s, r⟩, "", [], some r⟩

def withText (s : Session) : Option String → Session × Answer
  | some text => ({ s with text }, .done)
  | none => (s, .nothing)

def withRegistry (s : Session) (r : Registry Shorthand) : Session :=
  { s with converter := { s.converter with registry := r } }

def nameAnswer : Option Shorthand → Answer
  | some s => .name s.property
  | none => .nothing

def declarationAnswer : Option Declaration → Answer
  | some d => .declaration d
  | none => .nothing

/-- Registering in the shared registry also renews the converter's copy of it. -/
def register (s : Session) (name : String) (h : Shorthand) : Session × Answer :=
  match s.shared with
  | some r =>
    let r := (r.register name h).1
    ({ s.withRegistry r with shared := some r }, .nothing)
  | none =>
    let (r, replaced) := s.converter.registry.register name h
    (s.withRegistry r, nameAnswer replaced)

def expandList (s : Session) : Result (Session × Answer) :=
  match s.list with
  | [] => .ok (s, .nothing)
  | d :: _ => do
    match ← s.converter.expandDeclaration d with
    | some ds => .ok ({ s with list := ds }, .count ds.length)
    | none => .ok (s, .nothing)

def collapseList (s : Session) (shorthand : String) : Result (Session × Answer) := do
  match ← s.converter.collapseDeclarations shorthand s.list with
  | some d => .ok ({ s with list := [d] }, .declaration d)
  | none => .ok (s, .nothing)

def step (s : Session) : Step → Result (Session × Answer)
  | .setText text => .ok ({ s with text }, .nothing)
  | .read => do
    let ds ← s.converter.read s.text
    .ok ({ s with list := ds }, .count ds.length)
  | .print =>
    let text := Declaration.printAll s.list
    .ok ({ s with text }, .count text.utf8ByteSize)
  | .expand => (s.converter.expand s.text).map s.withText
  | .collapse shorthand => (s.converter.collapse shorthand s.text).map s.withText
  | .expandList => s.expandList
  | .collapseList shorthand => s.collapseList shorthand
  | .append ds =>
    let list := s.list ++ ds
    .ok ({ s with list }, .count list.length)
  | .remove property =>
    let list := s.list.filter fun d => d.property ≠ property
    .ok ({ s with list }, .truth list.isEmpty)
  | .reverse => .ok ({ s with list := s.list.reverse }, .nothing)
  | .find policy property => do
    let d ← Declaration.find policy property s.list
    .ok (s, declarationAnswer d)
  | .require policy shorthand property => do
    let d ← Declaration.require policy shorthand property s.list
    .ok (s, .declaration d)
  | .configure settings keepRegistry =>
    let c := Converter.ofSettings settings
    let c := if keepRegistry then { c with registry := s.converter.registry } else c
    .ok ({ s with converter := c }, .settings settings)
  | .register name h => .ok (s.register name h)
  | .lookUp name => .ok (s, nameAnswer ((s.shared.getD s.converter.registry).get? name))
  | .contains name => .ok (s, .truth (s.converter.registry.contains name))
  | .names => .ok (s, .names s.converter.registry.names)
  | .describe => .ok (s, .name s.converter.registry.describe)

def tryStep (s : Session) (x : Step) : Session × Result Answer :=
  match s.step x with
  | .ok (t, a) => (t, .ok a)
  | .error e => (s, .error e)

def run (s : Session) : List Step → List (Session × Result Answer)
  | [] => []
  | x :: xs =>
    let (t, a) := s.tryStep x
    (t, a) :: t.run xs

end Session
end StyleFold
