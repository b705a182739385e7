/-! JSON values and their text over several lines. -/
namespace StyleFold

/-- A number is kept as it is spelled. The fields of an object are in the order of the text. -/
inductive Json where
  | null
  | bool (b : Bool)
  | number (literal : String)
  | string (s : String)
  | array (items : List Json)
  | object (fields : List (String × Json))

instance : Inhabited Json where
  default := .null

namespace Json

def hexDigit (n : Nat) : Char :=
  Nat.digitChar (n % 16)

/-- A character inside a string. Controls are escaped, by a letter where there is one for them. -/
def escaped (c : Char) : List Char :=
  match c with
  | '"' => ['\\', '"']
  | '\\' => ['\\', '\\']
  | '\x08' => ['\\', 'b']
  | '\x0c' => ['\\', 'f']
  | '\n' => ['\\', 'n']
  | '\r' => ['\\', 'r']
  | '\t' => ['\\', 't']
  | _ =>
    if c.toNat < 32 then ['\\', 'u', '0', '0', hexDigit (c.toNat / 16), hexDigit c.toNat] else [c]

def quote (s : String) : String :=
  "\"" ++ String.ofList (s.toList.flatMap escaped) ++ "\""

def lineBreak (depth : Nat) : String :=
  "\n" ++ String.ofList (List.replicate (2 * depth) ' ')

mutual

/-- The text of a value that stands `depth` levels deep, each level indented by two spaces. -/
def print (depth : Nat) : Json → String
  | null => "null"
  | bool b => if b then "true" else "false"
  | number literal => literal
  | string s => quote s
  | array [] => "[]"
  | array (j :: js) =>
    "[" ++ lineBreak (depth + 1) ++ print (depth + 1) j ++ printItems (depth + 1) js ++
      lineBreak depth ++ "]"
  | object [] => "\x7b\x7d"
  | object ((key, j) :: fs) =>
    "\x7b" ++ lineBreak (depth + 1) ++ quote key ++ ": " ++ print (depth + 1) j ++
      printFields (depth + 1) fs ++ lineBreak depth ++ "\x7d"

def printItems (depth : Nat) : List Json → String
  | [] => ""
  | j :: js => "," ++ lineBreak depth ++ print depth j ++ printItems depth js

def printFields (depth : Nat) : List (String × Json) → String
  | [] => ""
  | (key, j) :: fs =>
    "," ++ lineBreak depth ++ quote key ++ ": " ++ print depth j ++ printFields depth fs

end

def text (j : Json) : String :=
  print 0 j

def field? (key : String) (fields : List (String × Json)) : Option Json :=
  (fields.find? fun f => f.1 = key).map Prod.snd

def string? : Json → Option String
  | string s => some s
  | _ => none

def bool? : Json → Option Bool
  | bool b => some b
  | _ => none

/-- The name of a choice without content: a string, or an object with the name as its only key and
null as its value. -/
def choice? : Json → Option String
  | string s => some s
  | object [(key, null)] => some key
  | _ => none

end Json
end StyleFold
