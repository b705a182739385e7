import StyleFold.Proofs.Token.Settled

/-! The lexemes of texts that are set next to each other. -/

namespace StyleFold
open Text Token

theorem Token.Apart.drop {s t : List Char} (h : Apart s t) (n : Nat) : Apart (s.drop n) t := by
  refine ⟨h.fresh, fun ⟨c, hc, hsp⟩ => h.spaces ⟨c, ?_, hsp⟩⟩
  rw [List.getLast?_drop] at hc
  split at hc
  · simp at hc
  · exact hc

namespace Lexeme

variable {c : Char} {s t : List Char} {l : Lexeme} {ls ms : List Lexeme}

/-- Whether the token ends on its own account and not because the text does. -/
def isEnded (l : Lexeme) : Bool :=
  Token.isEnded l.token l.source

theorem lex_induction {motive : List Char → Prop} (nil : motive [])
    (cons : ∀ c s, motive (s.drop (scan c s).2) → motive (c :: s)) (s : List Char) : motive s :=
  match s with
  | [] => nil
  | c :: s => cons c s (lex_induction nil cons (s.drop (scan c s).2))
termination_by s.length

theorem lex_append (hs : '\\' ∉ s) (he : ∀ l ∈ lex s, l.isEnded = true) (ht : Apart s t) :
    lex (s ++ t) = lex s ++ lex t := by
  induction s using lex_induction with
  | nil => rfl
  | cons c s ih =>
    rw [lex_cons] at he ⊢
    have hend := he _ List.mem_cons_self
    obtain ⟨-, hstable⟩ | ⟨hopen, -⟩ := settled_or_running hs
    · have hle := scan_length_le c s
      have hdrop : '\\' ∉ s.drop (scan c s).2 := fun hm =>
        hs (List.mem_cons_of_mem _ (List.mem_of_mem_drop hm))
      have ih := ih hdrop (fun l hl => he l (List.mem_cons_of_mem _ hl))
        (by simpa using ht.drop ((scan c s).2 + 1))
      rw [List.cons_append, lex_cons, hstable t ht, List.take_append_of_le_length hle,
        List.drop_append_of_le_length hle, ih, List.cons_append]
    · exact absurd hend (by rw [isEnded, hopen]; simp)

theorem exists_scan (h : lex s = ls ++ l :: ms) : ∃ c r, c :: r <:+ s ∧
    l = ⟨(scan c r).1, c :: r.take (scan c r).2⟩ ∧ ms = lex (r.drop (scan c r).2) := by
  induction s using lex_induction generalizing ls with
  | nil => simp [lex, lexFrom] at h
  | cons c s ih =>
    rw [lex_cons] at h
    cases ls with
    | nil =>
      obtain ⟨rfl, rfl⟩ := List.cons.inj h
      exact ⟨c, s, List.suffix_rfl, rfl, rfl⟩
    | cons m ls =>
      obtain ⟨d, r, hr, hl, hms⟩ := ih (List.cons.inj h).2
      exact ⟨d, r, hr.trans ((List.drop_suffix _ s).trans (List.suffix_cons c s)), hl, hms⟩

theorem exists_scan_of_mem (h : l ∈ lex s) : ∃ c r, c :: r <:+ s ∧
    l = ⟨(scan c r).1, c :: r.take (scan c r).2⟩ := by
  obtain ⟨front, back, hs⟩ := List.append_of_mem h
  obtain ⟨c, r, hr, hl, -⟩ := exists_scan hs
  exact ⟨c, r, hr, hl⟩

theorem source_ne_nil (h : l ∈ lex s) : l.source ≠ [] := by
  obtain ⟨c, r, -, rfl⟩ := exists_scan_of_mem h
  exact List.cons_ne_nil c _

theorem eq_nil_of_text (h : ∀ l ∈ ls, l ∈ lex s) (ht : text ls = []) : ls = [] := by
  cases ls with
  | nil => rfl
  | cons l ls =>
    rw [text_cons, List.append_eq_nil_iff] at ht
    exact absurd ht.1 (source_ne_nil (h l List.mem_cons_self))

theorem lex_text_of_append (h : lex s = ls ++ ms) : lex (text ms) = ms := by
  induction s using lex_induction generalizing ls with
  | nil =>
    have hms : ms = [] := (List.append_eq_nil_iff.mp h.symm).2
    rw [hms]
    rfl
  | cons c s ih =>
    cases ls with
    | nil => rw [← List.nil_append ms, ← h, text_lex]
    | cons l ls =>
      rw [lex_cons] at h
      exact ih (List.cons.inj h).2

theorem lex_append_cons (h : lex (c :: s ++ t) = l :: ls ++ ms)
    (htext : text (l :: ls) = c :: s) : (scan c (s ++ t)).2 ≤ s.length ∧
      l = ⟨(scan c (s ++ t)).1, c :: s.take (scan c (s ++ t)).2⟩ ∧
      text ls = s.drop (scan c (s ++ t)).2 ∧
      lex (s.drop (scan c (s ++ t)).2 ++ t) = ls ++ ms := by
  rw [List.cons_append, lex_cons, List.cons_append, List.cons.injEq] at h
  obtain ⟨rfl, h⟩ := h
  have hn := scan_length_le c (s ++ t)
  rw [text_cons, List.cons_append, List.cons.injEq] at htext
  have hle : (scan c (s ++ t)).2 ≤ s.length := by
    have := congrArg List.length htext.2
    rw [List.length_append, List.length_take_of_le hn] at this
    omega
  rw [List.take_append_of_le_length hle] at htext ⊢
  rw [List.drop_append_of_le_length hle] at h
  have hrest := htext.2.trans (List.take_append_drop (scan c (s ++ t)).2 s).symm
  exact ⟨hle, rfl, List.append_cancel_left hrest, h⟩

/-- Whether the text behind the lexeme must be kept for the lexeme to be read in the same way. -/
def leansOn (l : Lexeme) : Bool :=
  l.token.opens.isSome || match l.token with
    | .badQuoted _ => true
    | _ => false

/-- Lexemes that a text begins with are the lexemes of their own text. -/
theorem lex_of_append (hs : '\\' ∉ s) (hne : t ≠ []) (ht : Apart s t)
    (h : lex (s ++ t) = ls ++ ms) (htext : text ls = s)
    (hlast : ∀ l ∈ ls.getLast?, l.leansOn = false) :
    lex s = ls ∧ ∀ l ∈ ls, l.isEnded = true := by
  induction ls generalizing s with
  | nil =>
    rw [← htext]
    exact ⟨rfl, by simp⟩
  | cons l ls ih =>
    cases s with
    | nil =>
      have hl : l.source ≠ [] := source_ne_nil (s := t) (by simp_all)
      simp_all
    | cons c s =>
      obtain ⟨hle, rfl, hrest, h⟩ := lex_append_cons h htext
      obtain ⟨hend, hstable⟩ | ⟨-, -, hmore⟩ := settled_or_running hs
      · rw [hstable t ht] at *
        have hdrop : '\\' ∉ s.drop (scan c s).2 := fun hm =>
          hs (List.mem_cons_of_mem _ (List.mem_of_mem_drop hm))
        obtain ⟨hlex, hall⟩ := ih hdrop (by simpa using ht.drop ((scan c s).2 + 1)) h hrest
          fun l hl => hlast l (by rw [List.getLast?_cons]; simp_all)
        rw [lex_cons, hlex]
        exact ⟨rfl, List.forall_mem_cons.mpr ⟨hend, hall⟩⟩
      · exfalso
        obtain hlt | ⟨heq, hopen⟩ := hmore t hne ht
        · omega
        · rw [heq, List.drop_length] at hrest
          have hnil := eq_nil_of_text (fun l hl => by rw [h]; simp [hl]) hrest
          subst hnil
          have := hlast _ rfl
          rw [leansOn, Bool.or_eq_false_iff] at this
          obtain hopen | ⟨w, hw⟩ := hopen
          · simp [hopen] at this
          · simp [hw] at this

theorem isEnded_of_append (hs : '\\' ∉ s) (h : lex s = ls ++ ms) (hne : ms ≠ []) :
    ∀ l ∈ ls, l.isEnded = true := by
  intro l hl
  obtain ⟨front, back, rfl⟩ := List.append_of_mem hl
  rw [List.append_assoc, List.cons_append] at h
  obtain ⟨c, r, hr, rfl, hback⟩ := exists_scan h
  obtain ⟨hend, -⟩ | ⟨-, hlength, -⟩ := settled_or_running fun hm => hs (hr.subset hm)
  · exact hend
  · rw [hlength, List.drop_length] at hback
    exact absurd (List.append_eq_nil_iff.mp hback).2 hne

end Lexeme
end StyleFold
