import StyleFold.Proofs.Value.Components

/-!
A component of any value is the only component of its own text. Cut out of the value, it may be read
as other tokens than before, but where it was in one piece it stays in one.
-/
namespace StyleFold.Value
open Text Lexeme Token

variable {stack : List Bracket} {c s t v : List Char} {ls ms : List Lexeme}

theorem isTrivia_of_spaces (hmem : ∀ l ∈ ls, l ∈ lex s) (h : ∀ c ∈ text ls, isSpace c = true) :
    ∀ l ∈ ls, l.isTrivia = true := by
  intro l hl
  obtain ⟨c, r, hsource, hspace⟩ := head_of_mem (hmem l hl)
  have hc : c ∈ text ls := List.mem_flatMap.mpr ⟨l, hl, by rw [hsource]; exact List.mem_cons_self⟩
  exact isTrivia_iff.mpr (.inr (hspace.mpr (h c hc)))

/-- The front of a text that closes all of its brackets, with no whitespace outside them, has none
there when it is cut off either. It is no comment that it was not before. -/
theorem isFree_lex_of_append (ht : startsApart t = true) (hne : t ≠ [])
    (h : lex (s ++ t) = ls ++ ms) (htext : text ls = s)
    (hf : isFree isSpaceToken stack ls = true) (hn : nestAll stack ls = []) :
    isFree isSpaceToken stack (lex s) = true ∧
      ((∀ l ∈ lex s, l.token = .comment) → ∀ l ∈ ls, l.token = .comment) := by
  induction ls generalizing s stack with
  | nil =>
    rw [← htext]
    exact ⟨rfl, fun _ => by simp⟩
  | cons l ls ih =>
    cases s with
    | nil =>
      have hl : l.source ≠ [] := source_ne_nil (s := t) (by simp_all)
      simp_all
    | cons c s =>
      obtain ⟨hle, rfl, hrest, h⟩ := lex_append_cons h htext
      have hcut := scan_cut ht hne hle
      rw [lex_cons, isFree_cons]
      rw [isFree_cons] at hf
      rw [nestAll_cons] at hn
      generalize scan c (s ++ t) = x at hcut hrest h hf hn ⊢
      generalize scan c s = y at hcut ⊢
      cases hcut with
      | same =>
        obtain ⟨hfree, hcomment⟩ := ih h hrest hf.2 hn
        refine ⟨⟨hf.1, hfree⟩, fun hall => ?_⟩
        rw [List.forall_mem_cons] at hall ⊢
        exact ⟨hall.1, hcomment hall.2⟩
      | whole length solid =>
        have hdrop : lex (s.drop y.2) = [] := by
          rw [length, List.drop_length]
          rfl
        rw [hdrop]
        refine ⟨⟨fun _ => ?_, rfl⟩, fun hall => ?_⟩
        · rw [← Bool.not_eq_true]
          intro hspace
          have htoken : y.1 = .whitespace := isSpaceToken_iff.mp hspace
          rw [htoken] at solid
          contradiction
        · have htoken : y.1 = .comment := hall _ List.mem_cons_self
          rw [htoken] at solid
          contradiction
      | bare opens spaces =>
        -- What is left closes nothing, so that the bracket stays open.
        exfalso
        have htrivia := isTrivia_of_spaces (fun l hl => by rw [h]; exact List.mem_append_left _ hl)
          (by rwa [hrest])
        obtain ⟨b, hb⟩ := Option.isSome_iff_exists.mp opens
        rw [nestAll_of_isTrivia htrivia, nest_of_opens hb] at hn
        contradiction

theorem components_of_isFree (hf : isFree isSpaceToken [] (lex c) = true)
    (hc : ¬∀ l ∈ lex c, l.token = .comment) : components c = [c] := by
  have hall : (lex c).all isComment = false := by
    rw [← Bool.not_eq_true, List.all_eq_true]
    simpa [isComment] using hc
  rw [components, runs_eq_singleton hf, trimmedRuns, hall]
  simp [text_lex]

theorem components_of_mem (hc : c ∈ components v) : components c = [c] := by
  obtain ⟨r, hr, rfl⟩ := List.mem_map.mp hc
  obtain ⟨front, back, hls, -, solid, filled, ends⟩ := exists_isRun_of_mem (fun _ hl => hl) hr
  have hrest := lex_text_of_append hls
  by_cases hback : back = []
  · rw [hback, List.append_nil] at hrest
    exact components_of_isFree (by rwa [hrest]) (by rwa [hrest])
  · obtain ⟨hclosed, hapart⟩ := ends.resolve_left hback
    have hne : text back ≠ [] :=
      mt (eq_nil_of_text (s := v) fun l hl => by simp [hls, hl]) hback
    rw [text_append] at hrest
    obtain ⟨hfree, hcomment⟩ := isFree_lex_of_append hapart hne hrest rfl solid hclosed
    exact components_of_isFree hfree fun hall => filled (hcomment hall)

theorem split_component (hc : c ∈ components v) :
    split (String.ofList c) = [String.ofList c] := by
  rw [split, String.toList_ofList, components_of_mem hc]
  rfl

/-- Every component of a value is a value with that component alone. -/
theorem split_of_mem {t v : String} (h : t ∈ split v) : split t = [t] := by
  obtain ⟨c, hc, rfl⟩ := List.mem_map.mp h
  exact split_component hc

theorem split_of_mem_escapedNewline :
    "1\\" ∈ split "'a\n1\\\n(/*" ∧ split "1\\" = ["1\\"] := by
  have h : "1\\" ∈ split "'a\n1\\\n(/*" := by decide +kernel
  exact ⟨h, split_of_mem h⟩

end StyleFold.Value
