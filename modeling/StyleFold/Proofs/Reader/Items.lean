import StyleFold.Proofs.Lexeme.Nesting
import StyleFold.Proofs.Reader.Position

/-! The items of lexemes that are set next to each other. -/
namespace StyleFold.Reader.Strict
open Text Lexeme Token

variable {stack : List Bracket} {l : Lexeme} {ls ms : List Lexeme} {s : List Char}

def Item.behind (ls : List Lexeme) (i : Item) : Item :=
  { i with lexemes := ls ++ i.lexemes }

@[simp] theorem Item.behind_nil (i : Item) : i.behind [] = i :=
  rfl

@[simp] theorem Item.behind_behind (ls ms : List Lexeme) (i : Item) :
    (i.behind ms).behind ls = i.behind (ls ++ ms) := by
  simp [Item.behind]

theorem items_ne_nil (stack : List Bracket) (ls : List Lexeme) : items stack ls ≠ [] := by
  cases ls with
  | nil => simp [items]
  | cons l ls =>
    rw [items]
    split
    · simp
    · split <;> simp

theorem items_semicolon (h : isSemicolon l.token = true) (ls : List Lexeme) :
    items [] (l :: ls) = ⟨[], true⟩ :: items [] ls := by
  simp [items, h]

theorem items_cons (h : stack = [] → isSemicolon l.token = false) (ls : List Lexeme) :
    items stack (l :: ls) = (items (nest stack l.token) ls).modifyHead (Item.behind [l]) := by
  have hl : (stack.isEmpty && isSemicolon l.token) = false := by cases stack <;> simp_all
  obtain ⟨i, is, hi⟩ := List.exists_cons_of_ne_nil (items_ne_nil (nest stack l.token) ls)
  simp [items, hl, hi, Item.behind]

theorem items_append (h : isFree isSemicolon stack ls = true) (ms : List Lexeme) :
    items stack (ls ++ ms) = (items (nestAll stack ls) ms).modifyHead (Item.behind ls) := by
  induction ls generalizing stack with
  | nil =>
    obtain ⟨i, is, hi⟩ := List.exists_cons_of_ne_nil (items_ne_nil stack ms)
    simp [hi]
  | cons l ls ih =>
    obtain ⟨hl, hls⟩ := isFree_cons.mp h
    obtain ⟨i, is, hi⟩ := List.exists_cons_of_ne_nil (items_ne_nil (nestAll stack (l :: ls)) ms)
    rw [nestAll_cons] at hi
    rw [List.cons_append, items_cons hl, ih hls, nestAll_cons, hi]
    simp

theorem items_append_semicolon (h : isFree isSemicolon [] ls = true) (hn : nestAll [] ls = [])
    (hl : isSemicolon l.token = true) :
    items [] (ls ++ l :: ms) = ⟨ls, true⟩ :: items [] ms := by
  rw [items_append h, hn, items_semicolon hl]
  simp [Item.behind]

theorem items_induction {motive : List Lexeme → Prop}
    (last : ∀ ls, isFree isSemicolon [] ls = true → motive ls)
    (step : ∀ front l back, isFree isSemicolon [] front = true → nestAll [] front = [] →
      isSemicolon l.token = true → motive back → motive (front ++ l :: back))
    (ls : List Lexeme) : motive ls := by
  obtain ⟨hf, -, -⟩ | ⟨front, l, back, hls, hf, hn, hl, -, -⟩ := search_cases isSemicolon [] ls
  · exact last ls hf
  · have hlt : back.length < ls.length := by
      rw [hls, List.length_append, List.length_cons]
      omega
    rw [hls]
    exact step front l back hf hn hl (items_induction last step back)
termination_by ls.length

theorem items_eq_singleton (h : isFree isSemicolon [] ls = true) : items [] ls = [⟨ls, false⟩] := by
  have hitems := items_append h []
  rw [List.append_nil] at hitems
  rw [hitems, items]
  simp [Item.behind]

/-- The first item holds the lexemes before the first semicolon outside all brackets. -/
theorem exists_item (ls : List Lexeme) : ∃ i is back, items [] ls = i :: is ∧
    ls = i.lexemes ++ back ∧ isFree isSemicolon [] i.lexemes = true ∧
      (back = [] ∨ nestAll [] i.lexemes = []) := by
  obtain ⟨hf, -, -⟩ | ⟨front, l, back, rfl, hf, hn, hl, -, -⟩ := search_cases isSemicolon [] ls
  · exact ⟨⟨ls, false⟩, [], [], items_eq_singleton hf, (List.append_nil ls).symm, hf, .inl rfl⟩
  · exact ⟨⟨front, true⟩, _, l :: back, items_append_semicolon hf hn hl, rfl, hf, .inr hn⟩

theorem lex_semicolon (s : List Char) :
    lex (';' :: s) = ⟨.semicolon, [';']⟩ :: lex s := by
  rw [lex_cons]
  rfl

theorem lex_colon (s : List Char) : lex (':' :: s) = ⟨.colon, [':']⟩ :: lex s := by
  rw [lex_cons]
  rfl

theorem lex_bang (s : List Char) : lex ('!' :: s) = ⟨.delim '!', ['!']⟩ :: lex s := by
  rw [lex_cons]
  rfl

theorem lex_spaces {w : List Char} (hw : ∀ c ∈ w, isSpace c = true) (hne : w ≠ [])
    (hs : s.takeWhile isSpace = []) : lex (w ++ s) = ⟨.whitespace, w⟩ :: lex s := by
  obtain ⟨c, w, rfl⟩ := List.exists_cons_of_ne_nil hne
  obtain ⟨hc, hw⟩ := List.forall_mem_cons.mp hw
  have hspan : spanLength isSpace (w ++ s) = w.length := by
    rw [spanLength_append_of_stop hs, spanLength, List.takeWhile_eq_self_iff.mpr hw]
  rw [List.cons_append, lex_cons, scan_space hc, hspan, List.take_left, List.drop_left]

theorem lex_space {c : Char} (hc : isSpace c = true) (hs : s.takeWhile isSpace = []) :
    lex (c :: s) = ⟨.whitespace, [c]⟩ :: lex s :=
  lex_spaces (List.forall_mem_singleton.mpr hc) (List.cons_ne_nil c []) hs

theorem advance_newline (l : Location) (s : List Char) :
    l.advance ('\n' :: s) = l.nextLine.advance s := by
  simp [Location.advance, isNewline]

theorem collect_padding {i j : Item} (hend : j.ended = i.ended)
    (hpad : text (j.lexemes.takeWhile isPadding) = '\n' :: text (i.lexemes.takeWhile isPadding))
    (hrest : j.lexemes.dropWhile isPadding = i.lexemes.dropWhile isPadding) (l : Location)
    (is : List Item) : collect l (j :: is) = collect l.nextLine (i :: is) := by
  have hitem : item l j = item l.nextLine i := by
    simp only [item, hend, hpad, hrest, advance_newline]
  have hsource : j.source = '\n' :: i.source := by
    have hj := congrArg text (List.takeWhile_append_dropWhile (p := isPadding) (l := j.lexemes))
    have hi := congrArg text (List.takeWhile_append_dropWhile (p := isPadding) (l := i.lexemes))
    rw [text_append] at hi hj
    rw [Item.source, Item.source, ← hi, ← hj, hpad, hrest, hend]
    rfl
  rw [collect, collect, hitem, hsource, advance_newline]

/-- A newline in front of a list only moves it down. -/
theorem collect_newline (l : Location) (s : List Char) :
    collect l (items [] (lex ('\n' :: s))) = collect l.nextLine (items [] (lex s)) := by
  have hspace (w : List Char) (ls : List Lexeme) :
      items [] (⟨.whitespace, w⟩ :: ls) =
        (items [] ls).modifyHead (Item.behind [⟨.whitespace, w⟩]) :=
    items_cons (fun _ => rfl) ls
  cases s with
  | nil => rfl
  | cons c s =>
    by_cases hc : isSpace c = true
    · obtain ⟨i, is, hi⟩ := List.exists_cons_of_ne_nil
        (items_ne_nil [] (lex (s.drop (spanLength isSpace s))))
      have hspan : spanLength isSpace (c :: s) = spanLength isSpace s + 1 := by
        simp [spanLength, hc]
      rw [lex_cons, scan_space (by decide), lex_cons, scan_space hc, hspan, List.drop_succ_cons,
        hspace, hspace, hi, List.modifyHead_cons, List.modifyHead_cons]
      apply collect_padding <;> simp [Item.behind, isPadding, Lexeme.isTrivia, Token.isTrivia]
    · obtain ⟨i, is, hi⟩ := List.exists_cons_of_ne_nil (items_ne_nil [] (lex (c :: s)))
      rw [lex_space (by decide) (by simp [hc]), hspace, hi, List.modifyHead_cons]
      apply collect_padding <;> simp [Item.behind, isPadding, Lexeme.isTrivia, Token.isTrivia]

end StyleFold.Reader.Strict
