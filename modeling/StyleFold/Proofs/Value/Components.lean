import StyleFold.Proofs.Lexeme.Clean
import StyleFold.Proofs.Reader.Contained
import StyleFold.Value.Components

/-! The components of a clean value are clean values. -/
namespace StyleFold.Value
open Text Lexeme Token Reader.Strict

variable {stack : List Bracket} {l : Lexeme} {ls ms r : List Lexeme} {c v : List Char}

def isSpaceToken (t : Token) : Bool :=
  t == .whitespace

theorem isSpaceToken_iff {t : Token} : isSpaceToken t = true ↔ t = .whitespace :=
  beq_iff_eq

theorem runs_ne_nil (stack : List Bracket) (ls : List Lexeme) : runs stack ls ≠ [] := by
  cases ls with
  | nil => simp [runs]
  | cons l ls =>
    rw [runs]
    split
    · simp
    · split <;> simp

theorem runs_whitespace (h : isSpaceToken l.token = true) (ls : List Lexeme) :
    runs [] (l :: ls) = [] :: runs [] ls := by
  have hl : l.isWhitespace = true := h
  simp [runs, hl]

theorem runs_cons (h : stack = [] → isSpaceToken l.token = false) (ls : List Lexeme) :
    runs stack (l :: ls) = (runs (nest stack l.token) ls).modifyHead (l :: ·) := by
  have hl : (stack.isEmpty && l.isWhitespace) = false := by
    cases stack with
    | nil => exact h rfl
    | cons b stack => rfl
  obtain ⟨r, rs, hr⟩ := List.exists_cons_of_ne_nil (runs_ne_nil (nest stack l.token) ls)
  simp [runs, hl, hr]

theorem runs_append (h : isFree isSpaceToken stack ls = true) (ms : List Lexeme) :
    runs stack (ls ++ ms) = (runs (nestAll stack ls) ms).modifyHead (ls ++ ·) := by
  induction ls generalizing stack with
  | nil =>
    obtain ⟨r, rs, hr⟩ := List.exists_cons_of_ne_nil (runs_ne_nil stack ms)
    simp [hr]
  | cons l ls ih =>
    obtain ⟨hl, hls⟩ := isFree_cons.mp h
    obtain ⟨r, rs, hr⟩ := List.exists_cons_of_ne_nil (runs_ne_nil (nestAll stack (l :: ls)) ms)
    rw [nestAll_cons] at hr
    rw [List.cons_append, runs_cons hl, ih hls, nestAll_cons, hr]
    simp

theorem runs_append_whitespace (h : isFree isSpaceToken [] ls = true) (hn : nestAll [] ls = [])
    (hl : isSpaceToken l.token = true) : runs [] (ls ++ l :: ms) = ls :: runs [] ms := by
  rw [runs_append h, hn, runs_whitespace hl]
  simp

theorem runs_eq_singleton (h : isFree isSpaceToken [] ls = true) : runs [] ls = [ls] := by
  have hruns := runs_append h []
  rw [List.append_nil] at hruns
  rw [hruns, runs]
  simp

theorem runs_induction {motive : List Lexeme → Prop}
    (last : ∀ ls, isFree isSpaceToken [] ls = true → motive ls)
    (step : ∀ front l back, isFree isSpaceToken [] front = true → nestAll [] front = [] →
      isSpaceToken l.token = true → motive back → motive (front ++ l :: back))
    (ls : List Lexeme) : motive ls := by
  obtain ⟨hf, -, -⟩ | ⟨front, l, back, hls, hf, hn, hl, -, -⟩ := search_cases isSpaceToken [] ls
  · exact last ls hf
  · have hlt : back.length < ls.length := by
      rw [hls, List.length_append, List.length_cons]
      omega
    rw [hls]
    exact step front l back hf hn hl (runs_induction last step back)
termination_by ls.length

/-- A clean value with no space outside its strings, addresses, comments and brackets. -/
structure Component (c : List Char) : Prop extends Clean c where
  filled : c ≠ []
  solid : isFree isSpaceToken [] (lex c) = true

theorem ne_whitespace_of_last (hn : nestAll [] ls = []) (hf : isFree isSpaceToken [] ls = true) :
    ∀ l ∈ ls.getLast?, l.token ≠ .whitespace := by
  intro l hl ht
  obtain ⟨init, rfl⟩ := List.getLast?_eq_some_iff.mp hl
  have hstack : nestAll [] init = [] := by
    rw [nestAll_append, nestAll_cons, nestAll_nil, ht] at hn
    simpa [nest, opens] using hn
  have := (isFree_cons.mp (isFree_append.mp hf).2).1 hstack
  rw [ht] at this
  exact absurd this (by decide)

theorem ne_whitespace_of_head (hf : isFree isSpaceToken [] ls = true) :
    ∀ l ∈ ls.head?, l.token ≠ .whitespace := by
  cases ls with
  | nil => simp
  | cons l ls =>
    rintro _ ⟨⟩ ht
    have := (isFree_cons.mp hf).1 rfl
    rw [ht] at this
    contradiction

theorem Component.trim_eq (h : Component c) : trim c = c := by
  have := h.trim_text (fun _ hl => hl) (ne_whitespace_of_head h.solid)
    (ne_whitespace_of_last h.closed h.solid)
  rwa [text_lex] at this

theorem Component.contained (h : Component c) (hm : isFree isMark [] (lex c) = true) :
    Contained c :=
  ⟨h.plain, h.ended, h.closed, hm⟩

/-- What a run of lexemes of a value and the run without the comments at its end have in common. -/
structure IsCut (v : List Char) (r : List Lexeme) : Prop where
  lexed : lex (text r) = r
  filled : r ≠ []
  closed : nestAll [] r = []
  solid : isFree isSpaceToken [] r = true
  subset : ∀ l ∈ r, l ∈ lex v

theorem trimmedRuns_cons {rs : List (List Lexeme)} (h : rs ≠ []) (r : List Lexeme) :
    trimmedRuns (r :: rs) =
      match dropTrailingComments r with
      | [] => trimmedRuns rs
      | r => r :: trimmedRuns rs := by
  obtain ⟨q, qs, rfl⟩ := List.exists_cons_of_ne_nil h
  rfl

theorem exists_comments (ls : List Lexeme) :
    ∃ cs, ls = dropTrailingComments ls ++ cs ∧ ∀ l ∈ cs, l.token = .comment := by
  refine ⟨(ls.reverse.takeWhile isComment).reverse, ?_, fun l hl => ?_⟩
  · rw [dropTrailingComments, ← List.reverse_append, List.takeWhile_append_dropWhile,
      List.reverse_reverse]
  · simpa [isComment] using List.mem_takeWhile_imp (List.mem_reverse.mp hl)

theorem not_comment_of_dropTrailingComments (h : dropTrailingComments ls = r) (hr : r ≠ []) :
    ¬∀ l ∈ r, l.token = .comment := by
  intro hall
  have hne : ls.reverse.dropWhile isComment ≠ [] := by
    intro he
    rw [dropTrailingComments, he] at h
    exact hr h.symm
  have hlast := hall ((ls.reverse.dropWhile isComment).head hne) (by
    rw [← h, dropTrailingComments, List.mem_reverse]
    exact List.head_mem hne)
  have := List.head_dropWhile_not isComment hne
  simp [isComment, hlast] at this

/-- A run between what stands in front of it and behind it. Where it ends before the text does, its
brackets are closed and a comment or whitespace follows. -/
structure IsRun (front r back : List Lexeme) : Prop where
  begins : nestAll [] front = []
  solid : isFree isSpaceToken [] r = true
  filled : ¬∀ l ∈ r, l.token = .comment
  ends : back = [] ∨ nestAll [] r = [] ∧ startsApart (text back) = true

theorem exists_isRun_of_mem (hls : ∀ l ∈ ls, l ∈ lex v) (hr : r ∈ trimmedRuns (runs [] ls)) :
    ∃ front back, ls = front ++ (r ++ back) ∧ IsRun front r back := by
  induction ls using runs_induction with
  | last ls hf =>
    rw [runs_eq_singleton hf, trimmedRuns] at hr
    split at hr
    · simp at hr
    · rename_i hall
      obtain rfl := List.mem_singleton.mp hr
      exact ⟨[], [], by simp, rfl, hf, by simpa [isComment] using hall, .inl rfl⟩
  | step front w back hf hn hw ih =>
    have hspace := isSpaceToken_iff.mp hw
    have hback (hr : r ∈ trimmedRuns (runs [] back)) :
        ∃ f b, front ++ w :: back = f ++ (r ++ b) ∧ IsRun f r b := by
      obtain ⟨f, b, rfl, hrun⟩ := ih (fun l hl => hls l (by simp [hl])) hr
      exact ⟨front ++ w :: f, b, by simp, { hrun with begins := by simp [hn, hspace, hrun.begins] }⟩
    rw [runs_append_whitespace hf hn hw, trimmedRuns_cons (runs_ne_nil [] back)] at hr
    split at hr
    · exact hback hr
    · rename_i hne
      generalize hq : dropTrailingComments front = q at hr hne
      obtain rfl | hr := List.mem_cons.mp hr
      · obtain ⟨cs, hfront, hcs⟩ := exists_comments front
        rw [hq] at hfront
        subst hfront
        have hcomment : ∀ l ∈ cs, l.isTrivia = true := fun l hl => isTrivia_iff.mpr (.inl (hcs l hl))
        have hstack : nestAll [] r = [] := by
          rwa [nestAll_append, nestAll_of_isTrivia hcomment] at hn
        refine ⟨[], cs ++ w :: back, by simp, rfl, (isFree_append.mp hf).1,
          not_comment_of_dropTrailingComments hq hne, .inr ⟨hstack, ?_⟩⟩
        cases cs with
        | nil =>
          exact startsApart_trivia (hls w (by simp)) (isTrivia_iff.mpr (.inr hspace)) back
        | cons l cs =>
          exact startsApart_trivia (hls l (by simp)) (hcomment l List.mem_cons_self)
            (cs ++ w :: back)
      · exact hback hr

theorem exists_isCut_of_mem (h : Clean v) (hc : c ∈ components v) : ∃ r, c = text r ∧ IsCut v r ∧
    (isFree isMark [] (lex v) = true → isFree isMark [] r = true) := by
  obtain ⟨r, hr, rfl⟩ := List.mem_map.mp hc
  obtain ⟨front, back, hls, begins, solid, filled, ends⟩ := exists_isRun_of_mem (fun _ hl => hl) hr
  have hmem : ∀ l ∈ r, l ∈ lex v := fun l hl => by simp [hls, hl]
  have hclosed : nestAll [] r = [] := by
    obtain rfl | ⟨hn, -⟩ := ends
    · have := h.closed
      rwa [hls, nestAll_append, begins, List.append_nil] at this
    · exact hn
  have hlexed : lex (text r) = r :=
    lex_between h.plain hls (fun l hl => h.ended l (hmem l hl)) (fun l hl => h.good l (hmem l hl))
      (opens_of_nestAll_nil hclosed) (ne_whitespace_of_last hclosed solid) (ends.imp_right And.right)
  refine ⟨r, rfl, ⟨hlexed, ?_, hclosed, solid, hmem⟩, fun hfree => ?_⟩
  · rintro rfl
    exact filled (by simp)
  · rw [hls, isFree_append, begins, isFree_append] at hfree
    exact hfree.2.1

theorem mem_lex_of_mem (h : Clean v) (hc : c ∈ components v) : ∀ l ∈ lex c, l ∈ lex v := by
  obtain ⟨r, rfl, hcut, -⟩ := exists_isCut_of_mem h hc
  rw [hcut.lexed]
  exact hcut.subset

theorem subset_of_mem (h : Clean v) (hc : c ∈ components v) : c ⊆ v := by
  intro d hd
  rw [← text_lex c] at hd
  obtain ⟨l, hl, hd⟩ := List.mem_flatMap.mp hd
  exact (source_within (mem_lex_of_mem h hc l hl)).subset hd

theorem isFree_isMark_of_mem (h : Clean v) (hc : c ∈ components v)
    (hm : isFree isMark [] (lex v) = true) : isFree isMark [] (lex c) = true := by
  obtain ⟨r, rfl, hcut, hmark⟩ := exists_isCut_of_mem h hc
  rw [hcut.lexed]
  exact hmark hm

/-- The components of a clean value are clean and hold no spaces outside their brackets. -/
theorem component_of_mem (h : Clean v) (hc : c ∈ components v) : Component c := by
  have hmem := mem_lex_of_mem h hc
  have hsubset := subset_of_mem h hc
  obtain ⟨r, rfl, ⟨hlexed, hfilled, hclosed, hsolid, -⟩, -⟩ := exists_isCut_of_mem h hc
  refine ⟨⟨fun hm => h.plain (hsubset hm), fun d hd => h.spaces d (hsubset hd),
    fun l hl => h.ended l (hmem l hl), fun l hl => h.good l (hmem l hl), ?_⟩, fun he => ?_, ?_⟩
  · rwa [hlexed]
  · exact hfilled (eq_nil_of_text (fun l hl => hmem l (by rwa [hlexed])) he)
  · rwa [hlexed]

end StyleFold.Value
