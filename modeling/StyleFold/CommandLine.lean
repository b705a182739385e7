import StyleFold.Converter
import StyleFold.Json.Records

/-! The command line: what its arguments ask for, and what it answers. -/
namespace StyleFold

/-- The text of an expansion or a collapse may be absent. -/
inductive Command where
  | expand (text : Option String)
  | collapse (shorthand : String) (text : Option String)
  | list
deriving DecidableEq

structure Invocation where
  command : Command
  settings : Settings
  json : Bool
deriving DecidableEq

/-- The arguments read so far. Every option but the verbosity may be given once. -/
structure Arguments where
  words : List String
  reader : Option Reader
  duplicates : Option DuplicatePolicy
  json : Bool

namespace Arguments

def start : Arguments :=
  ⟨[], none, none, false⟩

def addWord (a : Arguments) (w : String) : Arguments :=
  { a with words := a.words ++ [w] }

def setReader (a : Arguments) (name : String) : Option Arguments :=
  match a.reader, Reader.ofName? name with
  | none, some r => some { a with reader := some r }
  | _, _ => none

def setDuplicates (a : Arguments) (name : String) : Option Arguments :=
  match a.duplicates, DuplicatePolicy.ofName? name with
  | none, some p => some { a with duplicates := some p }
  | _, _ => none

def setJson (a : Arguments) : Option Arguments :=
  if a.json then none else some { a with json := true }

def isVerbosity (w : String) : Bool :=
  w = "--verbose" ||
    match w.toList with
    | '-' :: 'v' :: vs => vs.all (· == 'v')
    | _ => false

def joinedValue? (name : String) (w : String) : Option String :=
  let start := (name ++ "=").toList
  if start.isPrefixOf w.toList then some (String.ofList (w.toList.drop start.length)) else none

def looksLikeOption (w : String) : Bool :=
  match w.toList with
  | '-' :: _ :: _ => true
  | _ => false

def readOne (a : Arguments) (w : String) : Option Arguments :=
  if w = "--json" then a.setJson
  else if isVerbosity w then some a
  else
    match joinedValue? "--codec" w, joinedValue? "--duplicates" w with
    | some v, _ => a.setReader v
    | _, some v => a.setDuplicates v
    | _, _ => if looksLikeOption w then none else some (a.addWord w)

/-- Behind two hyphens all arguments are words. Without a command in front of them there is none. -/
def read (a : Arguments) : List String → Option Arguments
  | [] => some a
  | "--" :: ws => if a.words.isEmpty then none else some { a with words := a.words ++ ws }
  | "--codec" :: v :: ws => do read (← a.setReader v) ws
  | "--duplicates" :: v :: ws => do read (← a.setDuplicates v) ws
  | w :: ws => do read (← a.readOne w) ws

end Arguments

namespace Command

def ofWords? : List String → Option Command
  | ["expand"] => some (.expand none)
  | ["expand", text] => some (.expand (some text))
  | ["collapse", shorthand] => some (.collapse shorthand none)
  | ["collapse", shorthand, text] => some (.collapse shorthand (some text))
  | ["list"] => some .list
  | _ => none

end Command

namespace Invocation

def ofArguments? (ws : List String) : Option Invocation := do
  let a ← Arguments.start.read ws
  let command ← Command.ofWords? a.words
  let reader := a.reader.getD Settings.standard.reader
  let duplicates := a.duplicates.getD Settings.standard.duplicates
  some ⟨command, ⟨reader, duplicates⟩, a.json⟩

end Invocation

inductive Failure where
  | unreadable
  | conversion (e : ConversionError)
  | noDeclaration
  | unsupported (property : String)
deriving DecidableEq

namespace Failure

def message : Failure → String
  | unreadable => "reading input: stream did not contain valid UTF-8"
  | conversion e => e.message
  | noDeclaration => "input holds no declaration"
  | unsupported property => "no shorthand provider for '" ++ property ++ "'"

end Failure

inductive Outcome where
  | printed (text : String)
  | failed (failure : Failure)
  | misused
deriving DecidableEq

namespace Outcome

def exitCode : Outcome → Nat
  | printed _ => 0
  | failed _ => 1
  | misused => 2

def output : Outcome → String
  | printed text => text
  | _ => ""

end Outcome

namespace Invocation

def decodeInput (input : ByteArray) : Except Failure String :=
  match String.fromUTF8? input with
  | some text => .ok text
  | none => .error .unreadable

/-- Whether the standard input is read: where no text is given, or a hyphen stands for it. -/
def readsInput : Option String → Bool
  | none => true
  | some text => text = "-"

def source (text : Option String) (input : ByteArray) : Except Failure String :=
  if readsInput text then decodeInput input else .ok (text.getD "")

def convert {α : Type} : Result α → Except Failure α
  | .ok a => .ok a
  | .error e => .error (.conversion e)

def expand (c : Converter) (json : Bool) (text : String) : Except Failure String := do
  match ← convert (c.read text) with
  | [] => .error .noDeclaration
  | d :: _ =>
    match ← convert (c.expandDeclaration d) with
    | none => .error (.unsupported d.property)
    | some ds =>
      .ok (if json then (Json.array (ds.map Declaration.toJson)).text ++ "\n"
        else Declaration.printAll ds)

def collapse (c : Converter) (json : Bool) (shorthand text : String) : Except Failure String := do
  let ds ← convert (c.read text)
  match ← convert (c.collapseDeclarations shorthand ds) with
  | none => .error (.unsupported shorthand)
  | some d => .ok (if json then d.toJson.text ++ "\n" else d.print ++ "\n")

def lines : List String → String
  | [] => ""
  | s :: ss => s ++ "\n" ++ lines ss

def answer (i : Invocation) (input : ByteArray) : Except Failure String := do
  let c := Converter.ofSettings i.settings
  match i.command with
  | .list => .ok (lines c.registry.names)
  | .expand text =>
    let t ← source text input
    expand c i.json t
  | .collapse shorthand text =>
    let t ← source text input
    collapse c i.json shorthand t

def run (i : Invocation) (input : ByteArray) : Outcome :=
  match i.answer input with
  | .ok text => .printed text
  | .error failure => .failed failure

def runArguments (ws : List String) (input : ByteArray) : Outcome :=
  match ofArguments? ws with
  | some i => i.run input
  | none => .misused

end Invocation
end StyleFold
