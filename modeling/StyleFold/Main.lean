import StyleFold.CommandLine

/-! The program: it passes its arguments and its standard input on and prints the outcome. -/
namespace StyleFold

def Invocation.needsInput (i : Invocation) : Bool :=
  match i.command with
  | .list => false
  | .expand text | .collapse _ text => Invocation.readsInput text

partial def readAll (stream : IO.FS.Stream) (bytes : ByteArray) : IO ByteArray := do
  let more ← stream.read 65536
  if more.isEmpty then return bytes else readAll stream (bytes ++ more)

def report (o : Outcome) : IO UInt32 := do
  IO.print o.output
  match o with
  | .failed failure => IO.eprintln ("error: " ++ failure.message)
  | .misused =>
    IO.eprintln "usage: (expand [TEXT] | collapse SHORTHAND [TEXT] | list)"
    IO.eprintln "  [--codec css|lenient] [--duplicates first-wins|last-wins|reject] [--json]"
  | .printed _ => pure ()
  return UInt32.ofNat o.exitCode

end StyleFold

def main (args : List String) : IO UInt32 := do
  let input ←
    match StyleFold.Invocation.ofArguments? args with
    | some i => if i.needsInput then StyleFold.readAll (← IO.getStdin) .empty else pure .empty
    | none => pure .empty
  StyleFold.report (StyleFold.Invocation.runArguments args input)
