import StyleFold.Pattern.Style
import StyleFold.Proofs.Pattern.Within
import StyleFold.Proofs.Text.Letters
import StyleFold.Proofs.Value.Tame

/-! The patterns of keywords and numbers match tame texts only. -/
namespace StyleFold.Pattern
open Text Value

variable {p q : Pattern} {c : Char} {w : List Char} {f : Char → Bool}

def IsTame (p : Pattern) : Prop :=
  ∀ w, Language p w → Tame w

theorem isTame_of_alphanumeric (h : (isLetter c || isDigit c) = true) : isTame c = true :=
  forall_alphanumeric (q := fun c => isTame c = true) (by decide +kernel) h

theorem isTame_of_isLetter (h : isLetter c = true) : isTame c = true :=
  isTame_of_alphanumeric (by rw [h, Bool.true_or])

theorem isTame_of_isDigit (h : isDigit c = true) : isTame c = true :=
  isTame_of_alphanumeric (by rw [h, Bool.or_true])

theorem isTame_of_toLower (h : isTame c.toLower = true) : isTame c = true := by
  obtain hc | hc := isLetter_or_toLower_eq c
  · exact isTame_of_isLetter hc
  · rwa [hc] at h

def isTameWord (s : String) : Bool :=
  !s.toList.isEmpty && (lower s.toList).all isTame

theorem tame_of_lower {s : String} (hs : isTameWord s = true) (h : lower w = lower s.toList) :
    Tame w := by
  simp only [isTameWord, Bool.and_eq_true, Bool.not_eq_true', List.isEmpty_eq_false_iff,
    List.all_eq_true] at hs
  refine ⟨?_, fun c hc => isTame_of_toLower (hs.2 _ (h ▸ List.mem_map_of_mem hc))⟩
  rintro rfl
  exact hs.1 (List.map_eq_nil_iff.mp h.symm)

theorem tame_initial : Tame Declaration.initial.toList :=
  tame_of_lower (s := Declaration.initial) (by decide) rfl

namespace IsTame

theorem of_within (hp : Within isTame p) (hf : Filled p) : IsTame p :=
  fun w hw => ⟨hf w hw, hp w hw⟩

theorem within (h : IsTame p) : Within isTame p :=
  fun w hw => (h w hw).tame

theorem filled (h : IsTame p) : Filled p :=
  fun w hw => (h w hw).filled

theorem word {s : String} (h : isTameWord s = true) : IsTame (word s) :=
  fun _ hw => tame_of_lower h (lower_of_word hw)

theorem oneOf {ws : List String} (h : ws.all isTameWord = true) : IsTame (oneOf ws) := by
  intro w hw
  obtain ⟨v, hv, hlower⟩ := exists_of_oneOf hw
  exact tame_of_lower (List.all_eq_true.mp h v hv) hlower

theorem alt (hp : IsTame p) (hq : IsTame q) : IsTame (alt p q) :=
  fun w hw => hw.elim (hp w) (hq w)

theorem digits : IsTame (many1 isDigit) :=
  of_within (.many1 fun _ => isTame_of_isDigit) .many1

theorem decimal : IsTame decimal := by
  have hdot : Within isTame (symbol '.') := .char fun c hc => by
    rw [beq_iff_eq.mp hc]
    decide
  have hmany : Within isTame (many isDigit) := .span fun _ => isTame_of_isDigit
  exact of_within ((digits.within.seq (hdot.seq hmany).optional).alt (hdot.seq digits.within))
    ((digits.filled.seq_left _).alt (digits.filled.seq_right _))

theorem unit : IsTame unit :=
  oneOf (by decide +kernel)

theorem decimalWithUnit : IsTame decimalWithUnit :=
  of_within (decimal.within.seq unit.within.optional) (decimal.filled.seq_left _)

theorem signedDecimal : IsTame signedDecimal := by
  have hsign : Within isTame (char fun c => c == '-' || c == '+') := .char fun c hc => by
    obtain rfl | rfl : c = '-' ∨ c = '+' := by simpa using hc
    · decide
    · decide
  exact of_within (hsign.optional.seq decimalWithUnit.within) (decimalWithUnit.filled.seq_right _)

end IsTame

@[simp] theorem subgroups_decimalWithUnit : subgroups decimalWithUnit = [] :=
  List.append_eq_nil_iff.mpr ⟨rfl, List.append_eq_nil_iff.mpr ⟨subgroups_oneOf _, rfl⟩⟩

@[simp] theorem subgroups_signedDecimal : subgroups signedDecimal = [] :=
  List.append_eq_nil_iff.mpr ⟨rfl, subgroups_decimalWithUnit⟩

end StyleFold.Pattern
