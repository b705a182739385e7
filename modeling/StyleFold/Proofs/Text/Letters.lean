import StyleFold.Declaration.Basic
import Mathlib

/-! Letter case. -/
namespace StyleFold
namespace Text

variable {c : Char}

theorem toLower_eq_self (h : ¬('A' ≤ c ∧ c ≤ 'Z')) : c.toLower = c := by
  rw [Char.toLower, dif_neg]
  exact h

/-- Only letters change their case. -/
theorem isLetter_or_toLower_eq (c : Char) : isLetter c = true ∨ c.toLower = c := by
  by_cases h : 'A' ≤ c ∧ c ≤ 'Z'
  · exact .inl (by simp [isLetter, h])
  · exact .inr (toLower_eq_self h)

theorem toLower_of_isDigit (h : isDigit c = true) : c.toLower = c := by
  simp only [isDigit, Bool.and_eq_true, decide_eq_true_eq] at h
  refine toLower_eq_self ?_
  rintro ⟨ha, -⟩
  exact absurd (le_trans ha h.2) (by decide)

theorem forall_alphanumeric {q : Char → Prop}
    (hall : ∀ n < 128, (isLetter (Char.ofNat n) || isDigit (Char.ofNat n)) = true →
      q (Char.ofNat n))
    (h : (isLetter c || isDigit c) = true) : q c := by
  have hlt : c.toNat < 128 := by
    simp only [isLetter, isDigit, Bool.or_eq_true, Bool.and_eq_true, decide_eq_true_eq, Char.le_def,
      UInt32.le_iff_toNat_le] at h
    change ((97 ≤ c.toNat ∧ c.toNat ≤ 122) ∨ (65 ≤ c.toNat ∧ c.toNat ≤ 90)) ∨
      (48 ≤ c.toNat ∧ c.toNat ≤ 57) at h
    omega
  have hc := hall c.toNat hlt
  rw [Char.ofNat_toNat] at hc
  exact hc h

theorem toLower_toLower (c : Char) : c.toLower.toLower = c.toLower := by
  obtain h | h := isLetter_or_toLower_eq c
  · exact forall_alphanumeric (q := fun c => c.toLower.toLower = c.toLower) (by decide +kernel)
      (by rw [h, Bool.true_or])
  · rw [h, h]

theorem lower_lower (s : List Char) : lower (lower s) = lower s := by
  rw [lower, lower, List.map_map]
  exact List.map_congr_left fun c _ => toLower_toLower c

end Text

theorem Declaration.lowercase_lowercase (name : String) :
    lowercase (lowercase name) = lowercase name := by
  rw [lowercase, lowercase, String.toList_ofList, Text.lower_lower]

end StyleFold
