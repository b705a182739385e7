import StyleFold.Proofs.Reader.Stable
import StyleFold.Reader

/-! Values that a reader finds unchanged where they have been printed. -/
namespace StyleFold.Reader
open Text Pattern Declaration Lenient

variable {r : Reader} {d : Declaration} {ds : List Declaration} {v : List Char}

/-- A value that the reader does not cut off before its end. -/
def Keeps : Reader → List Char → Prop
  | .strict, v => Strict.Contained v
  | .lenient, v => ';' ∉ v ∧ Unmarked v

def isLettered : List Char → Bool
  | [] => false
  | c :: s => Strict.isLowercase c && s.all fun c => Strict.isLowercase c || c == '-'

structure Printable (r : Reader) (d : Declaration) : Prop where
  lettered : isLettered d.property.toList = true
  filled : d.value.toList ≠ []
  trimmed : trim d.value.toList = d.value.toList
  kept : r.Keeps d.value.toList

theorem isNamed_of_isLettered (h : isLettered v = true) : Strict.isNamed v = true := by
  cases v with
  | nil => simp [isLettered] at h
  | cons c v =>
    simp only [isLettered, Strict.isNamed, Bool.and_eq_true, List.all_eq_true,
      Bool.or_eq_true] at h ⊢
    exact ⟨h.1, fun d hd => (h.2 d hd).imp_left .inl⟩

theorem isNameLetter_of_isLettered (h : isLettered v = true) :
    ∀ c ∈ v, isNameLetter c = true := by
  have hletter {c : Char} (hc : Strict.isLowercase c = true) : isNameLetter c = true := by
    simp only [Strict.isLowercase, Bool.and_eq_true, decide_eq_true_eq] at hc
    simp [isNameLetter, isLetter, hc]
  cases v with
  | nil => simp [isLettered] at h
  | cons c v =>
    simp only [isLettered, Bool.and_eq_true, List.all_eq_true, Bool.or_eq_true, beq_iff_eq] at h
    refine List.forall_mem_cons.mpr ⟨hletter h.1, fun d hd => ?_⟩
    obtain hd | rfl := h.2 d hd
    · exact hletter hd
    · simp [isNameLetter]

theorem lowercase_of_isLettered {p : String} (h : isLettered p.toList = true) :
    lowercase p = p := by
  rw [lowercase, (Strict.isNamed_cases (isNamed_of_isLettered h)).2, String.ofList_toList]

theorem Printable.strict (h : Printable .strict d) : Strict.Printable d :=
  ⟨isNamed_of_isLettered h.lettered, h.filled, h.trimmed, h.kept⟩

theorem unmarked_of_not_mem (h : '!' ∉ v) : Unmarked v :=
  fun u w huw => absurd (by simp [huw]) h

theorem Printable.recognized (h : Printable .lenient d) : Recognized d where
  named := by
    intro hnil
    have hlettered := h.lettered
    simp [hnil, isLettered] at hlettered
  letters := isNameLetter_of_isLettered h.lettered
  lowered := lowercase_of_isLettered h.lettered
  trimmed := h.trimmed
  unended := h.kept.1

theorem read_printAll (h : ∀ d ∈ ds, r.Printable d) : r.read (printAll ds) = .ok ds := by
  cases r with
  | strict => exact Strict.read_printAll fun d hd => (h d hd).strict
  | lenient =>
    refine congrArg Except.ok ((read_printAll_eq_self_iff fun d hd => (h d hd).recognized).mpr ?_)
    exact fun d hd _ => (h d hd).kept.2.not_endsMarked

theorem not_mem_of_read_lenient {s : String} (h : Reader.lenient.read s = .ok ds) :
    ∀ d ∈ ds, ';' ∉ d.value.toList := by
  cases h
  exact fun d hd => (recognized_of_read d hd).unended

end StyleFold.Reader
