import StyleFold.Json.Basic
import StyleFold.Settings

/-!
Declarations and settings as JSON. A record is an object, in which unknown keys are passed over, or
an array of its fields in their order.
-/
namespace StyleFold

namespace Declaration
open Json

def toJson (d : Declaration) : Json :=
  .object [("property", .string d.property), ("value", .string d.value),
    ("important", .bool d.important)]

def ofParts? (property value important : Option Json) : Option Declaration := do
  let property ← property >>= string?
  let value ← value >>= string?
  let important ← (important.getD (.bool false)).bool?
  some ⟨property, value, important⟩

/-- The priority may be absent, and is then normal. Names keep their letter case. -/
def ofJson? : Json → Option Declaration
  | .object fields =>
    ofParts? (field? "property" fields) (field? "value" fields) (field? "important" fields)
  | .array items => if items.length ≤ 3 then ofParts? items[0]? items[1]? items[2]? else none
  | _ => none

def listOfJson? : Json → Option (List Declaration)
  | .array items => items.mapM ofJson?
  | _ => none

end Declaration

namespace Settings
open Json

def ofParts? (reader duplicates : Option Json) : Option Settings := do
  let reader ← match reader with
    | none => some standard.reader
    | some j => choice? j >>= Reader.ofName?
  let duplicates ← match duplicates with
    | none => some standard.duplicates
    | some j => choice? j >>= DuplicatePolicy.ofName?
  some ⟨reader, duplicates⟩

def ofJson? : Json → Option Settings
  | .object fields => ofParts? (field? "codec" fields) (field? "duplicates" fields)
  | .array items => if items.length ≤ 2 then ofParts? items[0]? items[1]? else none
  | _ => none

end Settings
end StyleFold
