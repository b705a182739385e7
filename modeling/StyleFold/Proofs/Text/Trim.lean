import StyleFold.Pattern.Basic
import StyleFold.Text.Blank
import Mathlib

/-! What trimming takes away and what it leaves. -/
namespace StyleFold.Text
open Pattern (isGap)

variable {c : Char} {s a b : List Char}

theorem isBlank_of_isGap (h : isGap c = true) : isBlank c = true := by
  simp only [isGap, isSpace, isNewline, Bool.or_eq_true, beq_iff_eq] at h
  rcases h with ((h | h) | (h | h) | h) | h <;> subst c <;> decide

theorem isGap_of_isSpace (h : isSpace c = true) : isGap c = true := by
  simp [isGap, h]

theorem isBlank_of_isSpace (h : isSpace c = true) : isBlank c = true :=
  isBlank_of_isGap (isGap_of_isSpace h)

theorem not_isSpace_of_not_isBlank (h : isBlank c = false) : isSpace c = false := by
  rw [← Bool.not_eq_true] at h ⊢
  exact mt isBlank_of_isSpace h

theorem trimStart_append (ha : ∀ c ∈ a, isBlank c = true) (s : List Char) :
    trimStart (a ++ s) = trimStart s :=
  List.dropWhile_append_of_pos ha

theorem trimEnd_append (hb : ∀ c ∈ b, isBlank c = true) (s : List Char) :
    trimEnd (s ++ b) = trimEnd s := by
  rw [trimEnd, List.reverse_append, List.dropWhile_append_of_pos (by simpa using hb), trimEnd]

theorem trimStart_eq_nil_iff : trimStart s = [] ↔ ∀ c ∈ s, isBlank c = true := by
  simp [trimStart]

theorem trim_pad (ha : ∀ c ∈ a, isBlank c = true) (hb : ∀ c ∈ b, isBlank c = true)
    (s : List Char) : trim (a ++ s ++ b) = trim s := by
  rw [trim, trim, List.append_assoc, trimStart_append ha]
  by_cases hs : trimStart s = []
  · rw [hs, trimStart, List.dropWhile_append_of_pos (trimStart_eq_nil_iff.mp hs),
      List.dropWhile_eq_nil_iff.mpr hb]
  · have hsb : trimStart (s ++ b) = trimStart s ++ b := by
      rw [trimStart, List.dropWhile_append, if_neg (by rwa [List.isEmpty_iff])]
      rfl
    rw [hsb, trimEnd_append hb]

theorem not_of_mem_head?_dropWhile {α : Type} {p : α → Bool} {s : List α} {c : α}
    (h : c ∈ (s.dropWhile p).head?) : p c = false := by
  have := List.head?_dropWhile_not p s
  rw [h] at this
  simpa using this

theorem exists_trailing {α : Type} (p : α → Bool) (s : List α) : ∃ m b, s = m ++ b ∧
    (∀ c ∈ b, p c = true) ∧ ∀ c ∈ m.getLast?, p c = false := by
  refine ⟨(s.reverse.dropWhile p).reverse, (s.reverse.takeWhile p).reverse, ?_,
    fun c hc => List.mem_takeWhile_imp (List.mem_reverse.mp hc), fun c hc => ?_⟩
  · rw [← List.reverse_append, List.takeWhile_append_dropWhile, List.reverse_reverse]
  · rw [List.getLast?_reverse] at hc
    exact not_of_mem_head?_dropWhile hc

theorem exists_strip {α : Type} (p : α → Bool) (s : List α) : ∃ a m b, s = a ++ m ++ b ∧
    (∀ c ∈ a, p c = true) ∧ (∀ c ∈ b, p c = true) ∧ (∀ c ∈ m.head?, p c = false) ∧
      ∀ c ∈ m.getLast?, p c = false := by
  obtain ⟨m, b, hm, hb, hlast⟩ := exists_trailing p (s.dropWhile p)
  refine ⟨s.takeWhile p, m, b, ?_, fun c => List.mem_takeWhile_imp, hb, fun c hc => ?_, hlast⟩
  · rw [List.append_assoc, ← hm, List.takeWhile_append_dropWhile]
  · have hhead : c ∈ (s.dropWhile p).head? := by
      rw [hm, List.head?_append, hc]
      rfl
    exact not_of_mem_head?_dropWhile hhead

theorem exists_trim_pad (s : List Char) : ∃ a b, s = a ++ trim s ++ b ∧
    (∀ c ∈ a, isBlank c = true) ∧ ∀ c ∈ b, isBlank c = true := by
  refine ⟨s.takeWhile isBlank, ((trimStart s).reverse.takeWhile isBlank).reverse, ?_,
    fun c => List.mem_takeWhile_imp, fun c hc => List.mem_takeWhile_imp (List.mem_reverse.mp hc)⟩
  rw [List.append_assoc, trim, trimEnd, ← List.reverse_append, List.takeWhile_append_dropWhile,
    List.reverse_reverse, trimStart, List.takeWhile_append_dropWhile]

theorem dropWhile_eq_self_iff : s.dropWhile isBlank = s ↔ ∀ c ∈ s.head?, isBlank c = false := by
  cases s with
  | nil => simp
  | cons c s =>
    cases h : isBlank c with
    | false => simp [h]
    | true =>
      have hle := (List.dropWhile_suffix isBlank (l := s)).length_le
      have hne : s.dropWhile isBlank ≠ c :: s := fun he => by simp [he] at hle
      simpa [h] using hne

theorem trimEnd_eq_self_iff : trimEnd s = s ↔ ∀ c ∈ s.getLast?, isBlank c = false := by
  rw [trimEnd, List.reverse_eq_iff, dropWhile_eq_self_iff, List.head?_reverse]

theorem trim_eq_self_iff : trim s = s ↔
    (∀ c ∈ s.head?, isBlank c = false) ∧ ∀ c ∈ s.getLast?, isBlank c = false := by
  rw [← dropWhile_eq_self_iff, ← trimEnd_eq_self_iff]
  refine ⟨fun h => ?_, fun ⟨h₁, h₂⟩ => by rw [trim, trimStart, h₁, h₂]⟩
  have hstart : s.dropWhile isBlank = s := by
    refine (List.dropWhile_suffix isBlank).eq_of_length_le ?_
    calc s.length = (trim s).length := by rw [h]
      _ ≤ (trimStart s).length := by
        rw [trim, trimEnd, List.length_reverse, ← @List.length_reverse _ (trimStart s)]
        exact (List.dropWhile_suffix isBlank).length_le
  exact ⟨hstart, by rwa [trim, trimStart, hstart] at h⟩

theorem trim_suffix (h : ∀ c ∈ s.getLast?, isBlank c = false) : trim s <:+ s := by
  have hsuffix : trimStart s <:+ s := List.dropWhile_suffix isBlank
  have hlast : ∀ c ∈ (trimStart s).getLast?, isBlank c = false := fun c hc => h c <| by
    obtain ⟨u, hu⟩ := hsuffix
    rw [← hu, List.getLast?_append, hc]
    rfl
  rwa [trim, trimEnd_eq_self_iff.mpr hlast]

theorem trim_trim (s : List Char) : trim (trim s) = trim s := by
  obtain ⟨a, b, hs, ha, hb⟩ := exists_trim_pad s
  conv_rhs => rw [hs, trim_pad ha hb]

theorem mem_of_mem_trim (h : c ∈ trim s) : c ∈ s := by
  obtain ⟨a, b, hs, -, -⟩ := exists_trim_pad s
  rw [hs]
  simp [h]

end StyleFold.Text
