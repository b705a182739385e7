import StyleFold.Proofs.Value.Spaced

/-!
Texts without the characters that begin strings, addresses, comments, brackets and marks. Such a
text keeps to itself, and so does what a contained value leaves behind it.
-/
namespace StyleFold.Value
open Text Lexeme Token Reader.Strict Pattern

variable {c : Char} {s w v : List Char} {l : Lexeme}

/-- A character that begins neither a string, a comment nor a bracket and ends no value. -/
def isMild (c : Char) : Bool :=
  !(['\\', '"', '\'', '(', '[', '\x7b', '*', ';', '!'].contains c)

def isTame (c : Char) : Bool :=
  isMild c && !isBlank c

structure Tame (s : List Char) : Prop where
  filled : s ≠ []
  tame : ∀ c ∈ s, isTame c = true

theorem isMild_of_isTame (h : isTame c = true) : isMild c = true :=
  (Bool.and_eq_true_iff.mp h).1

theorem not_isBlank_of_isTame (h : isTame c = true) : isBlank c = false := by
  simpa using (Bool.and_eq_true_iff.mp h).2

theorem isMild_of_isGap (h : isGap c = true) : isMild c = true := by
  simp only [isGap, isSpace, isNewline, Bool.or_eq_true, beq_iff_eq] at h
  rcases h with ((h | h) | (h | h) | h) | h <;> subst c <;> decide

theorem ne_of_isMild {d : Char} (h : isMild c = true) (hd : isMild d = false) : c ≠ d := by
  rintro rfl
  rw [h] at hd
  contradiction

theorem not_mem_of_isMild (h : ∀ c ∈ s, isMild c = true) : '\\' ∉ s :=
  fun hm => ne_of_isMild (h _ hm) (by decide) rfl

theorem token_of_isMild (h : ∀ c ∈ s, isMild c = true) (hl : l ∈ lex s) :
    l.token.opens = none ∧ isMark l.token = false ∧ l.isEnded = true ∧ l.isBad = false := by
  have hspelled := spelled_of_mem (not_mem_of_isMild h) hl
  have hmild : ∀ c ∈ l.source, isMild c = true := fun c hc =>
    h c ((source_within hl).subset hc)
  have hnot {d : Char} (hd : isMild d = false) (hm : d ∈ l.source) : False :=
    ne_of_isMild (hmild d hm) hd rfl
  obtain ⟨t, source⟩ := l
  dsimp only at *
  cases t with
  | function name =>
    obtain ⟨u, rfl, -⟩ := hspelled
    exact (hnot (d := '(') (by decide) (by simp)).elim
  | quoted u | badQuoted u =>
    obtain ⟨mark, body, rfl, rfl | rfl⟩ := hspelled
    · exact (hnot (d := '"') (by decide) (by simp)).elim
    · exact (hnot (d := '\'') (by decide) (by simp)).elim
  | url u | badUrl u => exact (hnot (by decide) hspelled).elim
  | comment => exact (hnot (d := '*') (by decide) (hspelled.subset (by simp))).elim
  | semicolon =>
    cases hspelled
    exact (hnot (d := ';') (by decide) (by simp)).elim
  | opening b =>
    cases b
    case round => cases hspelled; exact (hnot (d := '(') (by decide) (by simp)).elim
    case square => cases hspelled; exact (hnot (d := '[') (by decide) (by simp)).elim
    case curly => cases hspelled; exact (hnot (d := '\x7b') (by decide) (by simp)).elim
  | delim d =>
    obtain ⟨rfl, -⟩ := hspelled
    have hd : d ≠ '!' := ne_of_isMild (hmild d (by simp)) (by decide)
    exact ⟨rfl, by simp [isMark, isSemicolon, isBang, hd], rfl, rfl⟩
  | _ => exact ⟨rfl, rfl, rfl, rfl⟩

theorem nestAll_of_isMild (h : ∀ c ∈ s, isMild c = true) : nestAll [] (lex s) = [] :=
  nestAll_eq_nil fun _ hl => (token_of_isMild h hl).1

theorem Tame.component (h : Tame s) : Component s := by
  have hmild := fun c hc => isMild_of_isTame (h.tame c hc)
  refine ⟨⟨not_mem_of_isMild hmild, fun c hc hblank => ?_, fun l hl => (token_of_isMild hmild hl).2.2.1,
    fun l hl => (token_of_isMild hmild hl).2.2.2, nestAll_of_isMild hmild⟩, h.filled,
    isFree_of_forall fun l hl => ?_⟩
  · rw [not_isBlank_of_isTame (h.tame c hc)] at hblank
    contradiction
  · rw [← Bool.not_eq_true]
    intro ht
    have hspelled := spelled_of_mem (not_mem_of_isMild hmild) hl
    rw [isSpaceToken_iff.mp ht] at hspelled
    obtain ⟨c, r, hsource⟩ := List.exists_cons_of_ne_nil (source_ne_nil hl)
    have hc : c ∈ l.source := by simp [hsource]
    have htame := not_isSpace_of_not_isBlank
      (not_isBlank_of_isTame (h.tame c ((source_within hl).subset hc)))
    rw [hspelled c hc] at htame
    contradiction

theorem Component.trimmed (h : Component s) : Trimmed s :=
  ⟨h.filled, h.trim_eq, h.plain⟩

theorem Tame.unmarked (h : Tame s) : isFree isMark [] (lex s) = true :=
  isFree_of_forall fun _ hl =>
    (token_of_isMild (fun c hc => isMild_of_isTame (h.tame c hc)) hl).2.1

theorem Tame.contained (h : Tame s) : Contained s :=
  h.component.contained h.unmarked

/-- Behind a mild text that ends with a space, the rest of a contained value is contained. -/
theorem contained_behind {pre : List Char} (h : Contained (pre ++ w))
    (hpre : ∀ c ∈ pre, isMild c = true) (hspace : ∃ c ∈ pre.getLast?, isSpace c = true)
    (hw : w.takeWhile isSpace = []) : Contained w := by
  obtain ⟨m, b, rfl, hb, hlast⟩ := exists_trailing isSpace pre
  have hm : ∀ c ∈ m, isMild c = true := fun c hc => hpre c (List.mem_append_left b hc)
  have hne : b ≠ [] := by
    rintro rfl
    obtain ⟨c, hc, hspace⟩ := hspace
    rw [hlast c (by simpa using hc)] at hspace
    exact Bool.false_ne_true hspace
  have hapart : Apart m (b ++ w) := by
    obtain ⟨c, r, rfl⟩ := List.exists_cons_of_ne_nil hne
    refine ⟨startsApart_space (hb c List.mem_cons_self) _, fun ⟨d, hd, hspace⟩ => ?_⟩
    rw [hlast d hd] at hspace
    exact absurd hspace Bool.false_ne_true
  have hlex : lex (m ++ b ++ w) = lex m ++ ⟨.whitespace, b⟩ :: lex w := by
    rw [List.append_assoc, lex_append (not_mem_of_isMild hm)
      (fun l hl => (token_of_isMild hm hl).2.2.1) hapart, lex_spaces hb hne hw]
  obtain ⟨hplain, hended, hclosed, hunmarked⟩ := h
  rw [hlex] at hended hclosed hunmarked
  rw [nestAll_append, nestAll_of_isMild hm] at hclosed
  rw [isFree_append, nestAll_of_isMild hm] at hunmarked
  exact ⟨fun hx => hplain (List.mem_append_right _ hx), fun l hl => hended l (by simp [hl]), hclosed,
    (isFree_cons.mp hunmarked.2).2⟩

end StyleFold.Value
