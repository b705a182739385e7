import StyleFold.Text.Blank
import StyleFold.Text.Location
import StyleFold.Token.Describe

/-! Why a declaration list cannot be read or a conversion cannot be made. -/
namespace StyleFold
open Text

inductive Flaw where
  | emptyValue
  | endOfInput
  | atRule (name : List Char)
  | unexpected (token : Token)
deriving DecidableEq

inductive Misfit where
  | severalValues
  | mixedPriority (shorthand : String)
  | heightWithoutSize
deriving DecidableEq

inductive ConversionError where
  | malformed (flaw : Flaw) (source : String) (location : Location)
  | foreignProperty (owner found : String)
  | missingLonghand (shorthand longhand : String)
  | longhandCount (shorthand : String) (expected found : Nat)
  | repeatedLonghand (property : String)
  | invalidValue (property : String) (misfit : Misfit)
deriving DecidableEq

namespace Flaw

def message : Flaw → String
  | emptyValue => "empty value"
  | endOfInput => "unexpected end of input"
  | atRule name => "invalid @ rule encountered: '@" ++ String.ofList name ++ "'"
  | unexpected token => "unexpected token: " ++ token.describe

end Flaw

namespace Misfit

def message : Misfit → String
  | severalValues => "the border shorthand takes a single value per component"
  | mixedPriority shorthand =>
    "'" ++ shorthand ++ "' longhands mix !important and normal priority"
  | heightWithoutSize => "a line-height needs a font-size"

end Misfit

namespace ConversionError

def message : ConversionError → String
  | malformed flaw source location =>
    "CSS parse error at line " ++ toString location.line ++ ", column " ++
      toString location.column ++ ": " ++ flaw.message ++ " in `" ++ source ++ "`"
  | foreignProperty owner found =>
    "provider for '" ++ owner ++ "' cannot convert '" ++ found ++ "'"
  | missingLonghand shorthand longhand =>
    "cannot build '" ++ shorthand ++ "' shorthand: missing '" ++ longhand ++ "'"
  | longhandCount shorthand expected found =>
    "'" ++ shorthand ++ "' shorthand needs " ++ toString expected ++
      " longhand declarations, found " ++ toString found
  | repeatedLonghand property => "duplicate longhand declaration '" ++ property ++ "'"
  | invalidValue property misfit =>
    "Invalid value for property '" ++ property ++ "': " ++ misfit.message

end ConversionError

abbrev Result (α : Type) :=
  Except ConversionError α

variable {ε α β : Type} {x : Except ε α} {f : α → Except ε β} {y : β} {e : ε}

theorem bind_eq_ok : x >>= f = .ok y ↔ ∃ a, x = .ok a ∧ f a = .ok y := by
  cases x with
  | error e => simp [bind, Except.bind]
  | ok a => simp [bind, Except.bind]

theorem bind_eq_error : x >>= f = .error e ↔ x = .error e ∨ ∃ a, x = .ok a ∧ f a = .error e := by
  cases x with
  | error e => simp [bind, Except.bind]
  | ok a => simp [bind, Except.bind]

theorem map_eq_ok {f : α → β} : f <$> x = .ok y ↔ ∃ a, x = .ok a ∧ f a = y := by
  cases x with
  | error e => simp [Functor.map, Except.map]
  | ok a => simp [Functor.map, Except.map]

end StyleFold
