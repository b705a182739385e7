import StyleFold.Proofs.Lexeme.Clean
import StyleFold.Proofs.Reader.Contained

/-! The values that are read in a clean text are clean. -/
namespace StyleFold.Reader.Strict
open Text Lexeme Token

variable {s v : List Char} {l : Location} {ls rest : List Lexeme} {d : Declaration}
  {ds : List Declaration}

theorem exists_holds_of_mem (h : collect l (items [] ls) = .ok ds) (hd : d ∈ ds)
    (hn : nestAll [] ls = []) : ∃ front i back, ls = front ++ (i.lexemes ++ back) ∧
      Holds i (some d) ∧ isFree isSemicolon [] i.lexemes = true ∧ nestAll [] i.lexemes = [] ∧
        (back = [] ∨ ∃ m ms, back = m :: ms ∧ isSemicolon m.token = true) := by
  induction ls using items_induction generalizing l ds with
  | last ls hf =>
    rw [items_eq_singleton hf] at h
    obtain ⟨o, es, hholds, hes, rfl⟩ := collect_cons_eq_ok.mp h
    cases hes
    obtain rfl : o = some d := by simpa using hd
    exact ⟨[], ⟨ls, false⟩, [], by simp, hholds, hf, hn, .inl rfl⟩
  | step front m back hf hstack hm ih =>
    rw [items_append_semicolon hf hstack hm] at h
    obtain ⟨o, es, hholds, hes, rfl⟩ := collect_cons_eq_ok.mp h
    have hback : nestAll [] back = [] := by
      rw [nestAll_append, hstack, nestAll_cons] at hn
      rwa [isSemicolon_iff.mp hm] at hn
    obtain hd | hd := List.mem_append.mp hd
    · obtain rfl : o = some d := by simpa using hd
      exact ⟨[], ⟨front, true⟩, m :: back, rfl, hholds, hf, hstack, .inr ⟨m, back, rfl, hm⟩⟩
    · obtain ⟨front', i, back', rfl, hi⟩ := ih hes hd hback
      exact ⟨front ++ m :: front', i, back', by simp, hi⟩

theorem Holds.exists_body {i : Item} (h : Holds i (some d)) :
    ∃ front ls important, i.lexemes = front ++ ls ∧ (∀ m ∈ front, m.token.opens = none) ∧
      HasBody ls d.value.toList important := by
  cases h with
  | declaration h hd =>
    rename_i name word ls
    obtain ⟨hcolon, hbody⟩ := hd
    rename_i source value rest important
    obtain ⟨lead, rfl, htrivia⟩ := exists_lead hcolon
    have hlexemes : i.lexemes = i.lexemes.takeWhile isPadding ++
        (⟨.ident name, word⟩ :: (lead ++ ⟨.colon, source⟩ :: rest)) := by
      rw [← h, List.takeWhile_append_dropWhile]
    refine ⟨i.lexemes.takeWhile isPadding ++ (⟨.ident name, word⟩ :: (lead ++ [⟨.colon, source⟩])),
      rest, important, by simpa using hlexemes, ?_,
      by simpa [Declaration.of, Declaration.withPriority] using hbody⟩
    refine List.forall_mem_append.mpr ⟨fun m hm => opens_of_isPadding (List.mem_takeWhile_imp hm),
      List.forall_mem_cons.mpr ⟨rfl, List.forall_mem_append.mpr ⟨fun m hm =>
        opens_of_isTrivia (htrivia m hm), List.forall_mem_singleton.mpr rfl⟩⟩⟩

theorem startsApart_semicolon (hs : '\\' ∉ s) {m : Lexeme} (hm : m ∈ lex s)
    (ht : isSemicolon m.token = true) (ms : List Lexeme) :
    startsApart (text (m :: ms)) = true := by
  have hspelled := spelled_of_mem hs hm
  rw [isSemicolon_iff.mp ht] at hspelled
  rw [text_cons, eq_of_spelling hspelled rfl]
  rfl

/-- Behind an exclamation mark stands the priority and not the rest of a mark that opens a comment. -/
theorem startsApart_bang (hs : '\\' ∉ s) {m : Lexeme} {ms : List Lexeme} {important : Bool}
    (hmem : ∀ l ∈ m :: ms, l ∈ lex s) (ht : isBang m.token = true)
    (h : HasPriority (m :: ms) important) (rest : List Lexeme) :
    startsApart (text (m :: ms ++ rest)) = true := by
  have hspelled := spelled_of_mem hs (hmem m List.mem_cons_self)
  rw [isBang_iff.mp ht] at hspelled
  have hhead : ∃ c r, text ms = c :: r ∧ c ≠ '-' := by
    cases h with
    | important hword hsame hrest =>
      rename_i after word source
      obtain ⟨lead, rfl, htrivia⟩ := exists_lead hword
      cases lead with
      | nil =>
        obtain ⟨c, r, hsource, -⟩ := head_of_mem (hmem ⟨.ident word, source⟩ (by simp))
        have hident := spelled_of_mem hs (hmem ⟨.ident word, source⟩ (by simp))
        refine ⟨c, r ++ text after, by simpa using congrArg (· ++ text after) hsource, ?_⟩
        rintro rfl
        rw [hident.2, show source = '-' :: r from hsource, sameWord_iff] at hsame
        exact absurd (List.cons.inj hsame).1 (by decide)
      | cons l lead =>
        obtain ⟨c, r, hsource, hspace⟩ := head_of_mem (hmem l (by simp))
        refine ⟨c, r ++ text (lead ++ ⟨.ident word, source⟩ :: after), by simp [hsource], ?_⟩
        rintro rfl
        have hapart := startsApart_trivia (hmem l (by simp)) (htrivia l List.mem_cons_self) []
        rw [text_cons, hsource] at hapart
        exact absurd (startsApart_cons hapart).1 (by decide)
  obtain ⟨c, r, htext, hc⟩ := hhead
  rw [List.cons_append, text_cons, hspelled.1, text_append, htext]
  simp [startsApart, List.isPrefixOf, hc.symm]

theorem isBlank_of_isWhitespace (hs : '\\' ∉ s) (hmem : ∀ l ∈ ls, l ∈ lex s)
    (hls : ∀ l ∈ ls, l.isWhitespace = true) : ∀ c ∈ text ls, isBlank c = true := by
  intro c hc
  obtain ⟨l, hl, hc⟩ := List.mem_flatMap.mp hc
  have hspelled := spelled_of_mem hs (hmem l hl)
  rw [isWhitespace_iff.mp (hls l hl)] at hspelled
  exact isBlank_of_isSpace (hspelled c hc)

theorem clean_of_trim {front back : List Lexeme} (h : Clean s) (hs : lex s = front ++ (ls ++ back))
    (hn : nestAll [] ls = []) (hmark : isFree isMark [] ls = true) (htrim : trim (text ls) = v)
    (hback : back = [] ∨ startsApart (text back) = true) :
    Clean v ∧ isFree isMark [] (lex v) = true := by
  obtain ⟨a, core, b, rfl, ha, hb, hhead, hlast⟩ := exists_strip isWhitespace ls
  have hmem (l) (hl : l ∈ a ++ core ++ b) : l ∈ lex s := by
    rw [hs]
    exact List.mem_append_right _ (List.mem_append_left _ hl)
  have ha' (l) (hl : l ∈ a) : l.isTrivia = true :=
    isTrivia_iff.mpr (.inr (isWhitespace_iff.mp (ha l hl)))
  have hb' (l) (hl : l ∈ b) : l.isTrivia = true :=
    isTrivia_iff.mpr (.inr (isWhitespace_iff.mp (hb l hl)))
  have hcore : nestAll [] core = [] := by
    rwa [nestAll_append, nestAll_of_isTrivia hb', nestAll_append, nestAll_of_isTrivia ha'] at hn
  have hfree := (isFree_append.mp (isFree_append.mp hmark).1).2
  rw [nestAll_of_isTrivia ha'] at hfree
  rw [text_append, text_append,
    trim_pad (isBlank_of_isWhitespace h.plain (fun l hl => hmem l (by simp [hl])) ha)
      (isBlank_of_isWhitespace h.plain (fun l hl => hmem l (by simp [hl])) hb)] at htrim
  have htoken {l : Lexeme} (hl : l.isWhitespace = false) : l.token ≠ .whitespace := by
    rw [← Bool.not_eq_true] at hl
    exact mt isWhitespace_iff.mpr hl
  have hspace (l) (hl : l ∈ core.getLast?) : l.token ≠ .whitespace := htoken (hlast l hl)
  have hbehind : b ++ back = [] ∨ startsApart (text (b ++ back)) = true := by
    cases b with
    | nil => exact hback
    | cons w b =>
      exact .inr (startsApart_trivia (hmem w (by simp)) (hb' w List.mem_cons_self) (b ++ back))
  have hsplit : lex s = (front ++ a) ++ (core ++ (b ++ back)) := by simp [hs]
  obtain ⟨hlex, hclean⟩ := h.between hsplit hcore hspace hbehind
  rw [h.trim_text (fun l hl => hmem l (by simp [hl])) (fun l hl => htoken (hhead l hl)) hspace]
    at htrim
  rw [← htrim, hlex]
  exact ⟨hclean, hfree⟩

/-- The declarations of a clean text have clean values, with neither semicolons nor exclamation marks
outside their strings, addresses and brackets. -/
theorem clean_of_read {t : String} (h : Clean t.toList) (hread : read t = .ok ds) (hd : d ∈ ds) :
    Clean d.value.toList ∧ isFree isMark [] (lex d.value.toList) = true := by
  obtain ⟨front, i, back, hlex, hholds, hfree, hn, hback⟩ := exists_holds_of_mem hread hd h.closed
  obtain ⟨before, ls, important, hlexemes, hopens, hbody⟩ := hholds.exists_body
  rw [hlexemes] at hlex hfree hn
  rw [nestAll_append, nestAll_eq_nil hopens] at hn
  have hls := (isFree_append.mp hfree).2
  rw [nestAll_eq_nil hopens] at hls
  obtain ⟨value, rest, rfl, htrim, hmark, hrest⟩ := hbody.exists_lexemes hls
  have hsplit : lex t.toList = (front ++ before) ++ (value ++ (rest ++ back)) := by simp [hlex]
  have hmem (l) (hl : l ∈ value ++ (rest ++ back)) : l ∈ lex t.toList := by
    rw [hsplit]
    exact List.mem_append_right _ hl
  obtain rfl | ⟨hvalue, m, ms, rfl, hbang, hpriority⟩ := hrest
  · refine clean_of_trim h hsplit (by simpa using hn) hmark htrim ?_
    obtain rfl | ⟨m, ms, rfl, hm⟩ := hback
    · exact .inl rfl
    · exact .inr (startsApart_semicolon h.plain (hmem m (by simp)) hm ms)
  · exact clean_of_trim h hsplit hvalue hmark htrim (.inr (startsApart_bang h.plain
      (fun l hl => hmem l (List.mem_append_right _ (List.mem_append_left _ hl))) hbang hpriority
      back))

end StyleFold.Reader.Strict
