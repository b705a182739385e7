import StyleFold.Proofs.Value.Spaced

/-!
Components spread over a text with whitespace of any width around them. They are found in it again,
whatever their neighbours are.
-/
namespace StyleFold.Value
open Text Lexeme Token Reader.Strict

variable {c s gap : List Char} {t : String} {ts : List String} {ls front back : List Lexeme}

/-- Texts in their order with whitespace between them, and perhaps around all of them. -/
inductive Spread : List String → List Char → Prop
  | nil {gap : List Char} (hgap : ∀ c ∈ gap, isSpace c = true) : Spread [] gap
  | cons {gap s : List Char} {t : String} {ts : List String} (hgap : ∀ c ∈ gap, isSpace c = true)
      (hs : ts = [] ∨ ∃ c r, s = c :: r ∧ isSpace c = true) (h : Spread ts s) :
      Spread (t :: ts) (gap ++ (t.toList ++ s))

/-- A text that ends and closes what it begins, without escapes, comments and whitespace outside its
brackets. -/
structure Solo (c : List Char) : Prop where
  plain : '\\' ∉ c
  ended : ∀ l ∈ lex c, l.isEnded = true
  closed : nestAll [] (lex c) = []
  filled : c ≠ []
  solid : isFree isSpaceToken [] (lex c) = true
  uncommented : Uncommented c

theorem isFree_of_components (h : components c = [c]) :
    c ≠ [] ∧ isFree isSpaceToken [] (lex c) = true := by
  have hc : c ∈ components c := by rw [h]; exact List.mem_singleton_self c
  obtain ⟨r, hr, htext⟩ := List.mem_map.mp hc
  obtain ⟨front, back, hls, hrun⟩ := exists_isRun_of_mem (fun _ hl => hl) hr
  have hmem : ∀ l ∈ front ++ back, l ∈ lex c := fun l hl => by
    rw [hls]
    obtain hl | hl := List.mem_append.mp hl <;> simp [hl]
  -- The run is as long as the text, so that nothing is left around it.
  have hlength := congrArg List.length (text_lex c)
  rw [hls, text_append, text_append, htext] at hlength
  have hnil : text (front ++ back) = [] := by
    rw [text_append, ← List.length_eq_zero_iff]
    simp only [List.length_append] at hlength ⊢
    omega
  obtain ⟨rfl, rfl⟩ := List.append_eq_nil_iff.mp (eq_nil_of_text hmem hnil)
  rw [List.nil_append, List.append_nil] at hls
  rw [hls]
  refine ⟨?_, hrun.solid⟩
  rintro rfl
  exact hrun.filled (by rw [← hls]; simp [lex, lexFrom])

theorem Whole.solo (h : Whole c) (hc : components c = [c]) : Solo c := by
  obtain ⟨hfilled, hsolid⟩ := isFree_of_components hc
  exact ⟨h.plain, h.ended, h.closed, hfilled, hsolid, uncommented_of_not_isInfix h.uncommented⟩

namespace Solo

theorem lex_ne_nil (h : Solo c) : lex c ≠ [] := fun he =>
  h.filled (by rw [← text_lex c, he]; rfl)

theorem takeWhile_isSpace (h : Solo c) (s : List Char) : (c ++ s).takeWhile isSpace = [] := by
  obtain ⟨l, ls, hl⟩ := List.exists_cons_of_ne_nil h.lex_ne_nil
  have hmem : l ∈ lex c := by
    rw [hl]
    exact List.mem_cons_self
  obtain ⟨d, r, hsource, hspace⟩ := head_of_mem hmem
  have hd : ¬isSpace d = true :=
    mt hspace.mpr (ne_whitespace_of_head h.solid l (by rw [hl]; rfl))
  rw [← text_lex c, hl, text_cons, hsource]
  exact List.takeWhile_cons_of_neg hd

theorem not_isSpace_of_getLast? (h : Solo c) : ∀ d ∈ c.getLast?, isSpace d = false := by
  intro d hd
  obtain ⟨l, hl⟩ : ∃ l, l ∈ (lex c).getLast? :=
    ⟨_, List.getLast?_eq_some_getLast h.lex_ne_nil⟩
  have hmem := List.mem_of_getLast? hl
  have hlast := ne_whitespace_of_last h.closed h.solid l hl
  obtain ⟨init, hinit⟩ := List.getLast?_eq_some_iff.mp hl
  have hgood (u : List Char) : l.token ≠ .badQuoted u := fun hbad => by
    obtain ⟨e, r, hnil, -⟩ := newline_of_badQuoted h.plain hinit hbad
    cases hnil
  refine Token.not_isSpace_of_getLast? (spelled_of_mem h.plain hmem) (h.ended l hmem) hlast hgood ?_
  rwa [← getLast?_text hl (source_ne_nil hmem), text_lex]

theorem lex_append (h : Solo c) (hs : ∀ d ∈ s.head?, isSpace d = true) :
    lex (c ++ s) = lex c ++ lex s := by
  refine Lexeme.lex_append h.plain h.ended (.of_last ?_ h.not_isSpace_of_getLast?)
  cases s with
  | nil => rfl
  | cons d s => exact startsApart_space (hs d rfl) s

end Solo

theorem trimmedRuns_whitespace {l : Lexeme} (h : isSpaceToken l.token = true) (ls : List Lexeme) :
    trimmedRuns (runs [] (l :: ls)) = trimmedRuns (runs [] ls) := by
  rw [runs_whitespace h, trimmedRuns_cons (runs_ne_nil [] ls)]
  rfl

theorem trimmedRuns_spaces (hgap : ∀ c ∈ gap, isSpace c = true) (hs : s.takeWhile isSpace = []) :
    trimmedRuns (runs [] (lex (gap ++ s))) = trimmedRuns (runs [] (lex s)) := by
  by_cases hne : gap = []
  · rw [hne, List.nil_append]
  · rw [lex_spaces hgap hne hs, trimmedRuns_whitespace rfl]

theorem trimmedRuns_solo (h : Solo c) (hs : ∀ d ∈ s.head?, isSpace d = true) :
    trimmedRuns (runs [] (lex (c ++ s))) = lex c :: trimmedRuns (runs [] (lex s)) := by
  have hfilled : ¬(lex c).all isComment = true := by
    obtain ⟨l, ls, hl⟩ := List.exists_cons_of_ne_nil h.lex_ne_nil
    have hcomment := h.uncommented l (by rw [hl]; exact List.mem_cons_self)
    simp [hl, isComment, hcomment]
  rw [h.lex_append hs]
  cases s with
  | nil =>
    have hnil : lex [] = [] := rfl
    rw [hnil, List.append_nil, runs_eq_singleton h.solid, trimmedRuns, if_neg hfilled]
    rfl
  | cons d s =>
    rw [lex_cons, scan_space (hs d rfl), runs_append_whitespace h.solid h.closed rfl,
      trimmedRuns_cons (runs_ne_nil _ _), dropTrailingComments_eq h.uncommented,
      trimmedRuns_whitespace rfl]
    obtain ⟨l, ls, hl⟩ := List.exists_cons_of_ne_nil h.lex_ne_nil
    simp only [hl]

theorem trimmedRuns_spread (hs : Spread ts s) (h : ∀ t ∈ ts, Solo t.toList) :
    trimmedRuns (runs [] (lex s)) = ts.map fun t => lex t.toList := by
  induction hs with
  | @nil gap hgap =>
    have hspaces := trimmedRuns_spaces (s := []) hgap rfl
    rwa [List.append_nil] at hspaces
  | @cons gap s t ts hgap hs hspread ih =>
    obtain ⟨ht, hts⟩ := List.forall_mem_cons.mp h
    -- Whatever is left of the last component is whitespace.
    have hbehind : ∀ d ∈ s.head?, isSpace d = true := by
      intro d hd
      obtain rfl | ⟨c, r, rfl, hc⟩ := hs
      · cases hspread with
        | nil hgap => exact hgap d (List.mem_of_head? hd)
      · cases hd
        exact hc
    rw [trimmedRuns_spaces hgap (ht.takeWhile_isSpace s), trimmedRuns_solo ht hbehind, ih hts]
    rfl

/-- Texts that are whole components make up a value of which they are the components. -/
theorem split_spread {v : String} (hv : Spread ts v.toList)
    (h : ∀ t ∈ ts, split t = [t] ∧ Whole t.toList) : split v = ts := by
  have hsolo : ∀ t ∈ ts, Solo t.toList := by
    intro t ht
    obtain ⟨hsplit, hwhole⟩ := h t ht
    obtain ⟨c, hc, hct⟩ := List.map_eq_singleton_iff.mp hsplit
    rw [← hct, String.toList_ofList] at hwhole hc ⊢
    exact hwhole.solo hc
  rw [split, components, trimmedRuns_spread hv hsolo, List.map_map, List.map_map]
  refine (List.map_congr_left fun s _ => ?_).trans (List.map_id _)
  simp only [Function.comp_apply, text_lex, String.ofList_toList, id]

end StyleFold.Value
