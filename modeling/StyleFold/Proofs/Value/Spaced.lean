import StyleFold.Proofs.Value.Components
import StyleFold.Text.Words

/-! Components set next to each other, and how they are found again. -/
namespace StyleFold.Value
open Text Lexeme Token Reader.Strict

variable {c v : List Char} {ls : List Lexeme} {ss : List String}

/-- A component that may stand before others, because no comment is lost there. -/
def Uncommented (c : List Char) : Prop :=
  ∀ l ∈ lex c, l.token ≠ .comment

theorem uncommented_of_not_isInfix (h : ¬['/', '*'] <:+: c) : Uncommented c := by
  intro l hl ht
  obtain ⟨r, hr⟩ := exists_comment_of_mem hl ht
  exact h (List.IsInfix.trans ⟨[], r, by rw [hr]; rfl⟩ (source_within hl))

theorem uncommented_of_mem (h : Clean v) (hc : c ∈ components v) (hcomment : ¬['/', '*'] <:+: v) :
    Uncommented c :=
  fun l hl => uncommented_of_not_isInfix hcomment l (mem_lex_of_mem h hc l hl)

theorem toList_spaced_cons (s : String) (h : ss ≠ []) :
    (spaced (s :: ss)).toList = s.toList ++ ' ' :: (spaced ss).toList := by
  obtain ⟨t, ts, rfl⟩ := List.exists_cons_of_ne_nil h
  simp [spaced, String.toList_append]

theorem toList_spaced_append {ts : List String} (hs : ss ≠ []) (ht : ts ≠ []) :
    (spaced (ss ++ ts)).toList = (spaced ss).toList ++ ([' '] ++ (spaced ts).toList) := by
  induction ss with
  | nil => exact absurd rfl hs
  | cons s ss ih =>
    by_cases hnil : ss = []
    · rw [hnil, List.singleton_append, toList_spaced_cons s ht]
      rfl
    · rw [List.cons_append, toList_spaced_cons s (by simp [hnil]), toList_spaced_cons s hnil,
        ih hnil, List.append_assoc]
      rfl

/-- A value that ends and closes what it begins, without escapes, without spaces outside its brackets
and without blanks at its ends. Inside of it there may be blanks of any kind. -/
structure Piece (c : List Char) : Prop where
  plain : '\\' ∉ c
  ended : ∀ l ∈ lex c, l.isEnded = true
  closed : nestAll [] (lex c) = []
  filled : c ≠ []
  solid : isFree isSpaceToken [] (lex c) = true
  trimmed : trim c = c

structure Whole (v : List Char) : Prop where
  plain : '\\' ∉ v
  uncommented : ¬['/', '*'] <:+: v
  ended : ∀ l ∈ lex v, l.isEnded = true
  closed : nestAll [] (lex v) = []

theorem Whole.iff_and : Whole v ↔ '\\' ∉ v ∧ ¬['/', '*'] <:+: v ∧
    (∀ l ∈ lex v, l.isEnded = true) ∧ nestAll [] (lex v) = [] :=
  ⟨fun ⟨h₁, h₂, h₃, h₄⟩ => ⟨h₁, h₂, h₃, h₄⟩, fun ⟨h₁, h₂, h₃, h₄⟩ => ⟨h₁, h₂, h₃, h₄⟩⟩

instance (v : List Char) : Decidable (Whole v) :=
  decidable_of_iff _ Whole.iff_and.symm

theorem Component.piece (h : Component c) : Piece c :=
  ⟨h.plain, h.ended, h.closed, h.filled, h.solid, h.trim_eq⟩

namespace Piece

theorem lex_append (h : Piece c) (hv : v.takeWhile isSpace = []) :
    lex (c ++ ' ' :: v) = lex c ++ ⟨.whitespace, [' ']⟩ :: lex v := by
  rw [Lexeme.lex_append h.plain h.ended (apart_of_trim h.trimmed rfl), lex_space (by decide) hv]

theorem takeWhile_isSpace (h : Piece c) (t : List Char) : (c ++ t).takeWhile isSpace = [] :=
  takeWhile_isSpace_of_trim h.filled h.trimmed t

theorem lex_ne_nil (h : Piece c) : lex c ≠ [] := fun he =>
  h.filled (by rw [← text_lex c, he]; rfl)

end Piece

theorem spaced_takeWhile (h : ∀ s ∈ ss, Piece s.toList) :
    (spaced ss).toList.takeWhile isSpace = [] := by
  cases ss with
  | nil => rfl
  | cons s ss =>
    have hs := h s List.mem_cons_self
    by_cases hne : ss = []
    · subst hne
      simpa [spaced] using hs.takeWhile_isSpace []
    · rw [toList_spaced_cons s hne]
      exact hs.takeWhile_isSpace _

theorem dropTrailingComments_eq (h : ∀ l ∈ ls, l.token ≠ .comment) :
    dropTrailingComments ls = ls := by
  obtain ⟨cs, hls, hcs⟩ := exists_comments ls
  cases cs with
  | nil => simpa using hls.symm
  | cons l cs => exact absurd (hcs l List.mem_cons_self) (h l (by rw [hls]; simp))

theorem trimmedRuns_spaced (h : ∀ s ∈ ss, Piece s.toList)
    (hc : ∀ s ∈ ss, Uncommented s.toList) :
    trimmedRuns (runs [] (lex (spaced ss).toList)) = ss.map fun s => lex s.toList := by
  induction ss with
  | nil => rfl
  | cons s ss ih =>
    have hs := h s List.mem_cons_self
    have hcs := hc s List.mem_cons_self
    have hss : ∀ t ∈ ss, Piece t.toList := fun t ht => h t (List.mem_cons_of_mem _ ht)
    by_cases hne : ss = []
    · subst hne
      have hall : (lex s.toList).all isComment = false := by
        obtain ⟨l, ls, hl⟩ := List.exists_cons_of_ne_nil hs.lex_ne_nil
        have hcomment : isComment l = false := by
          simpa [isComment] using hcs l (by rw [hl]; simp)
        rw [hl, List.all_cons, hcomment, Bool.false_and]
      rw [spaced, runs_eq_singleton hs.solid]
      simp [trimmedRuns, hall]
    · rw [toList_spaced_cons s hne, hs.lex_append (spaced_takeWhile hss),
        runs_append_whitespace hs.solid hs.closed rfl, trimmedRuns_cons (runs_ne_nil _ _),
        dropTrailingComments_eq hcs, ih hss fun t ht => hc t (List.mem_cons_of_mem _ ht)]
      obtain ⟨l, ls, hl⟩ := List.exists_cons_of_ne_nil hs.lex_ne_nil
      simp [hl]

theorem split_pieces (h : ∀ s ∈ ss, Piece s.toList) (hc : ∀ s ∈ ss, Uncommented s.toList) :
    split (spaced ss) = ss := by
  rw [split, components, trimmedRuns_spaced h hc, List.map_map, List.map_map]
  refine (List.map_congr_left fun s _ => ?_).trans (List.map_id _)
  simp only [Function.comp_apply, text_lex, String.ofList_toList, id]

theorem split_spaced (h : ∀ s ∈ ss, Component s.toList)
    (hc : ∀ s ∈ ss, Uncommented s.toList) : split (spaced ss) = ss :=
  split_pieces (fun s hs => (h s hs).piece) hc

theorem forall_whitespace_of_trimmedRuns (hc : ∀ l ∈ ls, l.token ≠ .comment)
    (h : trimmedRuns (runs [] ls) = []) : ∀ l ∈ ls, l.token = .whitespace := by
  induction ls using runs_induction with
  | last ls hf =>
    rw [runs_eq_singleton hf, trimmedRuns, ite_eq_left_iff] at h
    have hall : ls.all isComment = true := by
      by_contra hne
      exact List.cons_ne_nil _ _ (h hne)
    intro l hl
    exact absurd (by simpa [isComment] using List.all_eq_true.mp hall l hl) (hc l hl)
  | step front w back hf hn hw ih =>
    obtain ⟨hfront, hback⟩ := List.forall_mem_append.mp hc
    rw [runs_append_whitespace hf hn hw, trimmedRuns_cons (runs_ne_nil [] back),
      dropTrailingComments_eq hfront] at h
    cases front with
    | cons l front => contradiction
    | nil =>
      have hspace := isSpaceToken_iff.mp hw
      exact List.forall_mem_cons.mpr ⟨hspace, ih (List.forall_mem_cons.mp hback).2 h⟩

theorem head_ne_whitespace (htrim : trim v = v) : ∀ l ∈ (lex v).head?, l.token ≠ .whitespace := by
  intro l hl ht
  obtain ⟨ls, hls⟩ := List.head?_eq_some_iff.mp hl
  obtain ⟨d, r, hd, hspace⟩ := head_of_mem (List.mem_of_head? hl)
  have hv : v.head? = some d := by
    rw [← text_lex v, hls, text_cons, hd]
    rfl
  have hd := not_isSpace_of_not_isBlank ((trim_eq_self_iff.mp htrim).1 d hv)
  rw [hspace.mp ht] at hd
  contradiction

theorem last_ne_whitespace (hplain : '\\' ∉ v) (htrim : trim v = v) :
    ∀ l ∈ (lex v).getLast?, l.token ≠ .whitespace := by
  intro l hl ht
  have hmem := List.mem_of_getLast? hl
  have hspelled := spelled_of_mem hplain hmem
  rw [ht] at hspelled
  have hne := source_ne_nil hmem
  have hv : v.getLast? = some (l.source.getLast hne) := by
    rw [← List.getLast?_eq_some_getLast hne, ← getLast?_text hl hne, text_lex]
  have hlast := not_isSpace_of_not_isBlank ((trim_eq_self_iff.mp htrim).2 _ hv)
  rw [hspelled _ (List.getLast_mem hne)] at hlast
  contradiction

theorem isFree_of_length_components (hplain : '\\' ∉ v) (htrim : trim v = v) (hc : Uncommented v)
    (h : (components v).length = 1) : isFree isSpaceToken [] (lex v) = true := by
  have hhead := head_ne_whitespace htrim
  have hlast := last_ne_whitespace hplain htrim
  obtain ⟨hf, -, -⟩ | ⟨front, w, back, hls, hf, hn, hw, -, -⟩ :=
    search_cases isSpaceToken [] (lex v)
  · exact hf
  have hspace := isSpaceToken_iff.mp hw
  rw [Uncommented, hls] at hc
  obtain ⟨hfront, hback⟩ := List.forall_mem_append.mp hc
  rw [components, hls, runs_append_whitespace hf hn hw, trimmedRuns_cons (runs_ne_nil [] back),
    dropTrailingComments_eq hfront, List.length_map] at h
  rw [hls] at hhead hlast
  cases front with
  | nil => exact absurd hspace (hhead w rfl)
  | cons l front =>
    have hnil : trimmedRuns (runs [] back) = [] := by simpa using h
    have hall : ∀ l ∈ w :: back, l.token = .whitespace := List.forall_mem_cons.mpr ⟨hspace,
      forall_whitespace_of_trimmedRuns (List.forall_mem_cons.mp hback).2 hnil⟩
    have hne : w :: back ≠ [] := List.cons_ne_nil w back
    refine absurd (hall _ (List.getLast_mem hne)) (hlast _ ?_)
    rw [List.getLast?_append_of_ne_nil _ hne]
    exact List.getLast?_eq_some_getLast hne

theorem Whole.piece (h : Whole v) (hne : v ≠ []) (htrim : trim v = v)
    (hlength : (components v).length = 1) : Piece v := by
  have hsolid := isFree_of_length_components h.plain htrim
    (uncommented_of_not_isInfix h.uncommented) hlength
  exact ⟨h.plain, h.ended, h.closed, hne, hsolid, htrim⟩

theorem mem_spaced {d : Char} (h : d ∈ (spaced ss).toList) :
    d = ' ' ∨ ∃ s ∈ ss, d ∈ s.toList := by
  induction ss with
  | nil => simp [spaced] at h
  | cons s ss ih =>
    by_cases hne : ss = []
    · subst hne
      exact .inr ⟨s, List.mem_cons_self, h⟩
    · rw [toList_spaced_cons s hne] at h
      obtain h | rfl | h : d ∈ s.toList ∨ d = ' ' ∨ d ∈ (spaced ss).toList := by simpa using h
      · exact .inr ⟨s, List.mem_cons_self, h⟩
      · exact .inl rfl
      · obtain rfl | ⟨t, ht, hd⟩ := ih h
        · exact .inl rfl
        · exact .inr ⟨t, List.mem_cons_of_mem _ ht, hd⟩

theorem spaced_ne_nil (h : ∀ s ∈ ss, Component s.toList) (hne : ss ≠ []) :
    (spaced ss).toList ≠ [] := by
  obtain ⟨s, ss, rfl⟩ := List.exists_cons_of_ne_nil hne
  by_cases hss : ss = []
  · subst hss
    exact (h s List.mem_cons_self).filled
  · simp [toList_spaced_cons s hss]

theorem trim_spaced (h : ∀ s ∈ ss, Component s.toList) :
    trim (spaced ss).toList = (spaced ss).toList := by
  induction ss with
  | nil => rfl
  | cons s ss ih =>
    have hs := h s List.mem_cons_self
    have hss : ∀ t ∈ ss, Component t.toList := fun t ht => h t (List.mem_cons_of_mem _ ht)
    by_cases hne : ss = []
    · subst hne
      exact hs.trim_eq
    · rw [toList_spaced_cons s hne, trim_eq_self_iff, List.head?_append_of_ne_nil _ hs.filled,
        List.getLast?_append_of_ne_nil _ (by simp), List.getLast?_cons_of_ne_nil
          (spaced_ne_nil hss hne)]
      exact ⟨(trim_eq_self_iff.mp hs.trim_eq).1, (trim_eq_self_iff.mp (ih hss)).2⟩

theorem contained_spaced (h : ∀ s ∈ ss, Component s.toList)
    (hm : ∀ s ∈ ss, isFree isMark [] (lex s.toList) = true) : Contained (spaced ss).toList := by
  induction ss with
  | nil => exact ⟨by simp [spaced], by simp [spaced, lex, lexFrom], rfl, rfl⟩
  | cons s ss ih =>
    have hs := h s List.mem_cons_self
    have hss : ∀ t ∈ ss, Component t.toList := fun t ht => h t (List.mem_cons_of_mem _ ht)
    have hms := hm s List.mem_cons_self
    obtain ⟨hplain, hended, hclosed, hfree⟩ := ih hss fun t ht => hm t (List.mem_cons_of_mem _ ht)
    by_cases hne : ss = []
    · subst hne
      exact hs.contained hms
    · have hlex := hs.piece.lex_append (spaced_takeWhile fun t ht => (hss t ht).piece)
      rw [toList_spaced_cons s hne]
      refine ⟨?_, ?_, ?_, ?_⟩
      · simpa using ⟨hs.plain, hplain⟩
      · rw [hlex]
        exact List.forall_mem_append.mpr ⟨hs.ended, List.forall_mem_cons.mpr ⟨rfl, hended⟩⟩
      · rw [hlex, nestAll_append, hs.closed, nestAll_cons]
        exact hclosed
      · rw [hlex, isFree_append, hs.closed]
        exact ⟨hms, isFree_cons.mpr ⟨fun _ => rfl, hfree⟩⟩

end StyleFold.Value
