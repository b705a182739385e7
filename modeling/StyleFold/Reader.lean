import StyleFold.Reader.Strict
import StyleFold.Reader.Lenient

/-! The two ways to read a declaration list. -/
namespace StyleFold

inductive Reader where
  | strict | lenient
deriving DecidableEq

namespace Reader

def all : List Reader :=
  [.strict, .lenient]

def name : Reader → String
  | strict => "css"
  | lenient => "lenient"

def ofName? (s : String) : Option Reader :=
  all.find? fun r => r.name = s

def read : Reader → String → Result (List Declaration)
  | strict, s => Strict.read s
  | lenient, s => .ok (Lenient.read s)

end Reader
end StyleFold
