import StyleFold.Proofs.Lexeme.Clean

/-!
Texts without strings, brackets, escapes and comments. Their tokens open nothing and end on their own
account, so that such a text can be cut wherever something stands apart.
-/
namespace StyleFold.Lexeme
open Text Token

variable {c : Char} {s t u v : List Char} {l : Lexeme} {ls : List Lexeme}

/-- A character that neither begins nor ends a string or a bracket, and is read as itself. -/
def isFlat (c : Char) : Bool :=
  !(['"', '\'', '(', ')', '[', ']', '\x7b', '\x7d', '\\', '\x00'].contains c)

structure Flat (s : List Char) : Prop where
  flat : ∀ c ∈ s, isFlat c = true
  uncommented : ¬['/', '*'] <:+: s

theorem Flat.iff_and : Flat s ↔ (s.all isFlat) = true ∧ ¬['/', '*'] <:+: s := by
  rw [List.all_eq_true]
  exact ⟨fun ⟨h₁, h₂⟩ => ⟨h₁, h₂⟩, fun ⟨h₁, h₂⟩ => ⟨h₁, h₂⟩⟩

instance (s : List Char) : Decidable (Flat s) :=
  decidable_of_iff _ Flat.iff_and.symm

theorem Flat.of_infix (h : Flat t) (hs : s <:+: t) : Flat s :=
  ⟨fun c hc => h.flat c (hs.subset hc), fun hm => h.uncommented (hm.trans hs)⟩

theorem Flat.not_mem (h : Flat s) (hc : isFlat c = false) : c ∉ s := by
  intro hm
  rw [h.flat c hm] at hc
  contradiction

theorem Flat.plain (h : Flat s) : '\\' ∉ s :=
  h.not_mem (by decide)

theorem token_of_flat (h : Flat s) (hl : l ∈ lex s) :
    l.token.opens = none ∧ isTextual l.token = false ∧ ∀ b, l.token ≠ .closing b := by
  have hspelled := spelled_of_mem h.plain hl
  have hwithin := source_within hl
  have hnot {d : Char} (hd : isFlat d = false) (hm : d ∈ l.source) : False :=
    h.not_mem hd (hwithin.subset hm)
  obtain ⟨t, source⟩ := l
  dsimp only at *
  cases t with
  | function name =>
    obtain ⟨u, rfl, -⟩ := hspelled
    exact (hnot (d := '(') (by decide) (by simp)).elim
  | quoted u | badQuoted u =>
    obtain ⟨mark, body, rfl, rfl | rfl⟩ := hspelled
    · exact (hnot (d := '"') (by decide) (by simp)).elim
    · exact (hnot (d := '\'') (by decide) (by simp)).elim
  | url u | badUrl u => exact (hnot (by decide) hspelled).elim
  | comment => exact (h.uncommented (hspelled.isInfix.trans hwithin)).elim
  | opening b =>
    cases b
    case round => cases hspelled; exact (hnot (d := '(') (by decide) (by simp)).elim
    case square => cases hspelled; exact (hnot (d := '[') (by decide) (by simp)).elim
    case curly => cases hspelled; exact (hnot (d := '\x7b') (by decide) (by simp)).elim
  | closing b =>
    cases b
    case round => cases hspelled; exact (hnot (d := ')') (by decide) (by simp)).elim
    case square => cases hspelled; exact (hnot (d := ']') (by decide) (by simp)).elim
    case curly => cases hspelled; exact (hnot (d := '\x7d') (by decide) (by simp)).elim
  | _ => exact ⟨rfl, rfl, by simp⟩

theorem isEnded_of_not_textual (h : isTextual l.token = false) : l.isEnded = true := by
  obtain ⟨t, source⟩ := l
  cases t <;> first | rfl | simp [isTextual] at h

theorem nestAll_of_flat (h : Flat s) : nestAll [] (lex s) = [] :=
  nestAll_eq_nil fun _ hl => (token_of_flat h hl).1

theorem Flat.lex_append (h : Flat s) (ht : Apart s t) : lex (s ++ t) = lex s ++ lex t :=
  Lexeme.lex_append h.plain (fun _ hl => isEnded_of_not_textual (token_of_flat h hl).2.1) ht

/-- A flat text may be cut in front of anything that stands apart but more whitespace. -/
theorem Flat.lex_append_mark (h : Flat s) (hc : isSpace c = false)
    (ht : startsApart (c :: t) = true) : lex (s ++ c :: t) = lex s ++ lex (c :: t) :=
  h.lex_append ⟨ht, fun _ => List.takeWhile_cons_of_neg (by simp [hc])⟩

theorem isSpace_of_flat (h : Flat s) (hmem : ∀ l ∈ ls, l ∈ lex s)
    (hpad : ∀ l ∈ ls, l.isTrivia = true ∨ l.token = .closing .curly) :
    ∀ c ∈ text ls, isSpace c = true := by
  intro c hc
  obtain ⟨l, hl, hc⟩ := List.mem_flatMap.mp hc
  obtain ⟨-, htextual, hclosing⟩ := token_of_flat h (hmem l hl)
  have htrivia := (hpad l hl).resolve_right (hclosing .curly)
  obtain ht | ht := isTrivia_iff.mp htrivia
  · rw [ht] at htextual
    contradiction
  · have hspelled := spelled_of_mem h.plain (hmem l hl)
    rw [ht] at hspelled
    exact hspelled c hc

theorem exists_of_text_eq (h : text ls = u ++ c :: v) : ∃ front l back a b,
    ls = front ++ l :: back ∧ l.source = a ++ c :: b ∧ u = text front ++ a ∧
      v = b ++ text back := by
  induction ls generalizing u with
  | nil => simp at h
  | cons m ls ih =>
    rw [text_cons] at h
    obtain ⟨w, rfl, hw⟩ | ⟨w, hw, hv⟩ := List.append_eq_append_iff.mp h
    · obtain ⟨front, l, back, a, b, rfl, hsource, rfl, rfl⟩ := ih hw
      exact ⟨m :: front, l, back, a, b, rfl, hsource, by simp, rfl⟩
    · cases w with
      | nil =>
        obtain ⟨front, l, back, a, b, rfl, hsource, ha, rfl⟩ := ih (u := []) hv.symm
        exact ⟨m :: front, l, back, a, b, rfl, hsource, by simp [← ha, hw], rfl⟩
      | cons d w =>
        obtain ⟨rfl, rfl⟩ := List.cons.inj hv
        exact ⟨[], m, ls, u, w, rfl, hw, rfl, rfl⟩

end StyleFold.Lexeme
