import StyleFold.Proofs.Lexeme.Nesting
import StyleFold.Proofs.Text.Trim
import StyleFold.Proofs.Token.Cut

/-! Texts that end and close whatever they begin, and the parts of such texts. -/
namespace StyleFold.Lexeme
open Text Token

variable {c : Char} {s t : List Char} {l : Lexeme} {front core back ls : List Lexeme}
  {stack : List Bracket}

def isBad (l : Lexeme) : Bool :=
  match l.token with
  | .badQuoted _ | .badUrl _ => true
  | _ => false

/-- A text without escapes and without any blanks but spaces and newlines, whose strings, addresses
and comments are well formed and ended and whose brackets are closed. -/
structure Clean (s : List Char) : Prop where
  plain : '\\' ∉ s
  spaces : ∀ c ∈ s, isBlank c = true → isSpace c = true
  ended : ∀ l ∈ lex s, l.isEnded = true
  good : ∀ l ∈ lex s, l.isBad = false
  closed : nestAll [] (lex s) = []

theorem Clean.iff_and : Clean s ↔ '\\' ∉ s ∧ (s.all fun c => !isBlank c || isSpace c) = true ∧
    (∀ l ∈ lex s, l.isEnded = true) ∧ (∀ l ∈ lex s, l.isBad = false) ∧ nestAll [] (lex s) = [] := by
  have hspaces : (s.all fun c => !isBlank c || isSpace c) = true ↔
      ∀ c ∈ s, isBlank c = true → isSpace c = true := by
    simp [imp_iff_not_or]
  rw [hspaces]
  exact ⟨fun ⟨h₁, h₂, h₃, h₄, h₅⟩ => ⟨h₁, h₂, h₃, h₄, h₅⟩,
    fun ⟨h₁, h₂, h₃, h₄, h₅⟩ => ⟨h₁, h₂, h₃, h₄, h₅⟩⟩

instance (s : List Char) : Decidable (Clean s) :=
  decidable_of_iff _ Clean.iff_and.symm

theorem ne_badQuoted_of_isBad (h : l.isBad = false) (u : List Char) : l.token ≠ .badQuoted u := by
  intro ht
  simp [isBad, ht] at h

theorem head_of_mem (h : l ∈ lex s) :
    ∃ c r, l.source = c :: r ∧ (l.token = .whitespace ↔ isSpace c = true) := by
  obtain ⟨c, r, -, rfl⟩ := exists_scan_of_mem h
  refine ⟨c, _, rfl, fun ht => ?_, fun hc => by rw [scan_space hc]⟩
  dsimp only at ht
  obtain hsp | ⟨rfl, r, rfl⟩ := begins_of_isTrivia (c := c) (s := r) (by rw [ht]; rfl)
  · exact hsp
  · rw [scan_comment] at ht
    contradiction

theorem stringBody_newline {q : Char} (hs : '\\' ∉ s) (h : (stringBody q 0 s).good = false) :
    ∃ c r, s.drop (stringBody q 0 s).length = c :: r ∧ isNewline c = true := by
  induction s with
  | nil => simp [stringBody, Extent.stop] at h
  | cons c s ih =>
    have hc : (c == '\\') = false := by simpa using (List.ne_of_not_mem_cons hs).symm
    by_cases hq : (c == q) = true
    · simp [stringBody, hq, Extent.stop] at h
    · by_cases hn : isNewline c = true
      · exact ⟨c, s, by simp [stringBody, hq, hn, Extent.stop], hn⟩
      · simp only [stringBody, hq, hn, hc, Bool.false_eq_true, if_false, Extent.cons] at h ⊢
        exact ih (List.not_mem_of_not_mem_cons hs) h

/-- A string is broken off by a newline. -/
theorem newline_of_badQuoted {u : List Char} (hs : '\\' ∉ s) (h : lex s = front ++ l :: back)
    (hl : l.token = .badQuoted u) : ∃ c r, text back = c :: r ∧ isNewline c = true := by
  obtain ⟨c, r, hr, rfl, rfl⟩ := exists_scan h
  have hplain : '\\' ∉ c :: r := fun hm => hs (hr.subset hm)
  have hspelled := scan_spelled hplain
  dsimp only at hl
  rw [hl] at hspelled
  obtain ⟨mark, body, hsource, hmark⟩ := hspelled
  obtain ⟨rfl, -⟩ := List.cons.inj hsource
  rw [scan_quote hmark] at hl ⊢
  have hgood : (stringBody c 0 r).good = false := by
    rw [← Bool.not_eq_true]
    intro hg
    simp [hg] at hl
  rw [text_lex]
  exact stringBody_newline (List.not_mem_of_not_mem_cons hplain) hgood

theorem opens_of_nestAll_nil (h : nestAll stack ls = []) :
    ∀ l ∈ ls.getLast?, l.token.opens = none := by
  intro l hl
  obtain ⟨init, rfl⟩ := List.getLast?_eq_some_iff.mp hl
  rw [nestAll_append, nestAll_cons, nestAll_nil] at h
  cases ho : l.token.opens with
  | none => rfl
  | some b => simp [nest, ho] at h

theorem getLast?_text (hl : l ∈ ls.getLast?) (hne : l.source ≠ []) :
    (text ls).getLast? = l.source.getLast? := by
  obtain ⟨init, rfl⟩ := List.getLast?_eq_some_iff.mp hl
  rw [text_append, text_cons, text_nil, List.append_nil, List.getLast?_append_of_ne_nil _ hne]

theorem not_isSpace_of_last (hs : '\\' ∉ s) (hmem : ∀ l ∈ ls, l ∈ lex s)
    (hended : ∀ l ∈ ls, l.isEnded = true) (hgood : ∀ l ∈ ls, l.isBad = false)
    (hspace : ∀ l ∈ ls.getLast?, l.token ≠ .whitespace) :
    ∀ c ∈ (text ls).getLast?, isSpace c = false := by
  intro c hc
  cases hlast : ls.getLast? with
  | none =>
    rw [List.getLast?_eq_none_iff.mp hlast] at hc
    simp at hc
  | some l =>
    have hl := List.mem_of_getLast? hlast
    rw [getLast?_text hlast (source_ne_nil (hmem l hl))] at hc
    exact not_isSpace_of_getLast? (spelled_of_mem hs (hmem l hl)) (hended l hl) (hspace l hlast)
      (ne_badQuoted_of_isBad (hgood l hl)) hc

/-- A part of a text is read by itself as it is read in the text, where it ends with neither a space
nor an open bracket and something that stands apart follows. -/
theorem lex_between (hs : '\\' ∉ s) (h : lex s = front ++ (core ++ back))
    (hended : ∀ l ∈ core, l.isEnded = true) (hgood : ∀ l ∈ core, l.isBad = false)
    (hopens : ∀ l ∈ core.getLast?, l.token.opens = none)
    (hspace : ∀ l ∈ core.getLast?, l.token ≠ .whitespace)
    (hback : back = [] ∨ startsApart (text back) = true) : lex (text core) = core := by
  have hmem (l) (hl : l ∈ core) : l ∈ lex s := by simp [h, hl]
  have hrest := lex_text_of_append h
  have hplain : '\\' ∉ text core ++ text back := by
    rw [← text_append]
    intro hm
    obtain ⟨l, hl, hm⟩ := List.mem_flatMap.mp hm
    exact hs ((source_within (s := s) (by rw [h]; exact List.mem_append_right _ hl)).subset hm)
  by_cases hb : back = []
  · rwa [hb, List.append_nil] at hrest
  · rw [text_append] at hrest
    have hne : text back ≠ [] := mt (eq_nil_of_text (s := s) fun l hl => by simp [h, hl]) hb
    refine (lex_of_append (fun hm => hplain (List.mem_append_left _ hm)) hne
      (.of_last (hback.resolve_left hb) (not_isSpace_of_last hs hmem hended hgood hspace))
      hrest rfl fun l hl => ?_).1
    have hl' := ne_badQuoted_of_isBad (hgood l (List.mem_of_getLast? hl))
    rw [leansOn, hopens l hl]
    cases ht : l.token <;> simp_all

theorem startsApart_space {d : Char} (h : isSpace d = true) (t : List Char) :
    startsApart (d :: t) = true := by
  simp only [isSpace, isNewline, Bool.or_eq_true, beq_iff_eq] at h
  rcases h with (rfl | rfl) | (rfl | rfl) | rfl <;> rfl

theorem comment_of_scan {c : Char} {r : List Char} (h : (scan c r).1 = .comment) :
    c = '/' ∧ ∃ u, r = '*' :: u := by
  obtain hc | hmark := begins_of_isTrivia (c := c) (s := r) (by rw [h]; rfl)
  · rw [scan_space hc] at h
    contradiction
  · exact hmark

theorem exists_comment_of_mem (hl : l ∈ lex s) (ht : l.token = .comment) :
    ∃ r, l.source = '/' :: '*' :: r := by
  obtain ⟨c, r, -, rfl⟩ := exists_scan_of_mem hl
  obtain ⟨rfl, u, rfl⟩ := comment_of_scan ht
  exact ⟨u.take (commentLength u), by rw [scan_comment, Nat.add_comm, List.take_succ_cons]⟩

theorem startsApart_trivia (hl : l ∈ lex s) (ht : l.isTrivia = true) (ls : List Lexeme) :
    startsApart (text (l :: ls)) = true := by
  rw [text_cons]
  obtain ht | ht := isTrivia_iff.mp ht
  · obtain ⟨r, hr⟩ := exists_comment_of_mem hl ht
    rw [hr]
    rfl
  · obtain ⟨d, r, hsource, hspace⟩ := head_of_mem hl
    rw [hsource]
    exact startsApart_space (hspace.mp ht) _

theorem Clean.between (hs : Clean s) (h : lex s = front ++ (core ++ back))
    (hn : nestAll [] core = []) (hspace : ∀ l ∈ core.getLast?, l.token ≠ .whitespace)
    (hback : back = [] ∨ startsApart (text back) = true) :
    lex (text core) = core ∧ Clean (text core) := by
  have hmem (l) (hl : l ∈ core) : l ∈ lex s := by simp [h, hl]
  have hlex := lex_between hs.plain h (fun l hl => hs.ended l (hmem l hl))
    (fun l hl => hs.good l (hmem l hl)) (opens_of_nestAll_nil hn) hspace hback
  have hsubset : text core ⊆ s := by
    intro c hc
    obtain ⟨l, hl, hc⟩ := List.mem_flatMap.mp hc
    exact (source_within (hmem l hl)).subset hc
  refine ⟨hlex, fun hm => hs.plain (hsubset hm), fun c hc => hs.spaces c (hsubset hc), ?_, ?_, ?_⟩ <;>
    rw [hlex]
  · exact fun l hl => hs.ended l (hmem l hl)
  · exact fun l hl => hs.good l (hmem l hl)
  · exact hn

theorem Clean.trim_text (h : Clean s) (hmem : ∀ l ∈ ls, l ∈ lex s)
    (hhead : ∀ l ∈ ls.head?, l.token ≠ .whitespace)
    (hlast : ∀ l ∈ ls.getLast?, l.token ≠ .whitespace) : trim (text ls) = text ls := by
  have hblank {c} (hc : c ∈ text ls) (hsp : isSpace c = false) : isBlank c = false := by
    obtain ⟨l, hl, hc⟩ := List.mem_flatMap.mp hc
    rw [← Bool.not_eq_true] at hsp ⊢
    exact mt (h.spaces c ((source_within (hmem l hl)).subset hc)) hsp
  refine trim_eq_self_iff.mpr ⟨fun c hc => hblank (List.mem_of_head? hc) ?_,
    fun c hc => hblank (List.mem_of_getLast? hc) ?_⟩
  · cases ls with
    | nil => cases hc
    | cons l ls =>
      obtain ⟨e, r, hsource, hspace⟩ := head_of_mem (hmem l List.mem_cons_self)
      rw [text_cons, hsource] at hc
      obtain rfl : e = c := by simpa using hc
      rw [← Bool.not_eq_true, ← hspace]
      exact hhead l rfl
  · exact not_isSpace_of_last h.plain hmem (fun l hl => h.ended l (hmem l hl))
      (fun l hl => h.good l (hmem l hl)) hlast c hc

end StyleFold.Lexeme
