import StyleFold.Reader

/-! How texts are read and which of repeated declarations count. -/
namespace StyleFold

structure Settings where
  reader : Reader
  duplicates : DuplicatePolicy
deriving DecidableEq

namespace Settings

def standard : Settings :=
  ⟨.strict, .first⟩

end Settings
end StyleFold
