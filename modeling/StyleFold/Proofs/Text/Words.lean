import StyleFold.Text.Words
import Mathlib

/-! The first occurrence of a character or of a text, and the parts between all of them. -/
namespace StyleFold.Text

variable {c : Char} {s t u x : List Char}

theorem bne_of_mem (h : c ∉ s) : ∀ d ∈ s, (d != c) = true := by
  rintro d hd
  rw [bne_iff_ne]
  rintro rfl
  exact h hd

theorem beforeFirst_append_cons (h : c ∉ s) (t : List Char) : beforeFirst c (s ++ c :: t) = s := by
  simp [beforeFirst, List.takeWhile_append_of_pos (bne_of_mem h)]

theorem beforeFirst_eq_self (h : c ∉ s) : beforeFirst c s = s :=
  List.takeWhile_eq_self_iff.mpr (bne_of_mem h)

theorem afterFirst?_append_cons (h : c ∉ s) (t : List Char) :
    afterFirst? c (s ++ c :: t) = some t := by
  simp [afterFirst?, List.dropWhile_append_of_pos (bne_of_mem h)]

theorem afterFirst?_eq_none (h : c ∉ s) : afterFirst? c s = none := by
  rw [afterFirst?, List.dropWhile_eq_nil_iff.mpr (bne_of_mem h)]

/-- A text stands on one side of a character, or reaches across it. -/
theorem infix_append_cons_cases (h : u <:+: s ++ c :: t) :
    u <:+: s ∨ u <:+: t ∨ ∃ v w, u = v ++ c :: w ∧ v <:+ s ∧ w <+: t := by
  obtain h | h | ⟨v, w, rfl, hv, hw⟩ := List.infix_append_iff.mp h
  · exact .inl h
  · obtain h | h := List.infix_cons_iff.mp h
    · obtain rfl | ⟨w, rfl, hw⟩ := List.prefix_cons_iff.mp h
      · exact .inl List.nil_infix
      · exact .inr (.inr ⟨[], w, rfl, List.nil_suffix, hw⟩)
    · exact .inr (.inl h)
  · obtain rfl | ⟨w, rfl, hbehind⟩ := List.prefix_cons_iff.mp hw
    · rw [List.append_nil]
      exact .inl hv.isInfix
    · exact .inr (.inr ⟨v, w, rfl, hv, hbehind⟩)

theorem infix_append_cons (hc : c ∉ u) (h : u <:+: s ++ c :: t) : u <:+: s ∨ u <:+: t := by
  obtain h | h | ⟨v, w, rfl, -, -⟩ := infix_append_cons_cases h
  · exact .inl h
  · exact .inr h
  · simp at hc

theorem replaceFirst_append (h : ∀ u v, s = u ++ v → v ≠ [] → ¬x <+: v ++ t) (y : List Char) :
    replaceFirst x y (s ++ t) = s ++ replaceFirst x y t := by
  induction s with
  | nil => rfl
  | cons c s ih =>
    have hhere : ¬x.isPrefixOf (c :: (s ++ t)) = true := fun hp =>
      h [] (c :: s) rfl (List.cons_ne_nil c s) (List.isPrefixOf_iff_prefix.mp hp)
    rw [List.cons_append, replaceFirst, if_neg hhere, ih fun u v huv => h (c :: u) v (by rw [huv]; rfl)]
    rfl

theorem replaceFirst_self (h : x ≠ []) (y t : List Char) : replaceFirst x y (x ++ t) = y ++ t := by
  obtain ⟨c, x, rfl⟩ := List.exists_cons_of_ne_nil h
  have hhere : (c :: x).isPrefixOf (c :: (x ++ t)) = true :=
    List.isPrefixOf_iff_prefix.mpr ⟨t, rfl⟩
  rw [List.cons_append, replaceFirst, if_pos hhere, ← List.cons_append, List.drop_left]

theorem exists_replaceFirst (hne : x ≠ []) (h : x <:+: s) (y : List Char) :
    ∃ a b, s = a ++ (x ++ b) ∧ replaceFirst x y s = a ++ (y ++ b) ∧ ¬x <:+: a := by
  induction s with
  | nil => exact absurd (List.infix_nil.mp h) hne
  | cons d s ih =>
    by_cases hhere : x <+: d :: s
    · obtain ⟨b, hb⟩ := hhere
      refine ⟨[], b, hb.symm, ?_, fun hx => hne (List.infix_nil.mp hx)⟩
      rw [← hb, replaceFirst_self hne]
      rfl
    · obtain ⟨a, b, rfl, hreplaced, hfirst⟩ := ih ((List.infix_cons_iff.mp h).resolve_left hhere)
      refine ⟨d :: a, b, rfl, ?_, fun hx => ?_⟩
      · rw [replaceFirst, if_neg (by rwa [List.isPrefixOf_iff_prefix]), hreplaced]
        rfl
      · obtain hx | hx := List.infix_cons_iff.mp hx
        · exact hhere (hx.trans (List.prefix_append (d :: a) (x ++ b)))
        · exact hfirst hx

theorem splitOn_induction (c : Char) {motive : List Char → Prop}
    (last : ∀ s, c ∉ s → motive s) (step : ∀ a b, c ∉ a → motive b → motive (a ++ c :: b))
    (s : List Char) : motive s := by
  by_cases hs : c ∈ s
  · obtain ⟨a, b, hab, ha⟩ := List.eq_append_cons_of_mem hs
    have hlt : b.length < s.length := by
      rw [hab, List.length_append, List.length_cons]
      omega
    rw [hab]
    exact step a b ha (splitOn_induction c last step b)
  · exact last s hs
termination_by s.length

theorem splitOn_append (c : Char) (s t : List Char) :
    (s ++ c :: t).splitOn c = s.splitOn c ++ t.splitOn c :=
  List.splitOnP_append_cons s t (beq_self_eq_true c)

theorem splitOn_append_cons (h : c ∉ s) (t : List Char) :
    (s ++ c :: t).splitOn c = s :: t.splitOn c := by
  rw [splitOn_append, List.splitOn_eq_singleton h]
  rfl

end StyleFold.Text
