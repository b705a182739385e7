import StyleFold.Proofs.Lexeme.Flat
import StyleFold.Proofs.Lexeme.Identifier
import StyleFold.Proofs.Reader.Contained
import StyleFold.Proofs.Text.Letters
import StyleFold.Proofs.Text.Words

/-!
The declaration lists among the flat texts, said of their characters and not of their tokens. The
strict reader accepts these lists and no other flat text.
-/
namespace StyleFold.Reader.Strict
open Text Lexeme Token Declaration

variable {s t v w : List Char} {o : Option Declaration} {ls : List Lexeme} {important : Bool}
  {location : Location}

/-- Every exclamation mark belongs to a mark `<!--`. -/
def Bangless (v : List Char) : Prop :=
  ∀ u w, v = u ++ '!' :: w → ['<'] <:+ u ∧ ['-', '-'] <+: w

/-- What may stand behind a value: nothing, or an exclamation mark and the word `important`. -/
inductive Mark : List Char → Bool → Prop
  | normal : Mark [] false
  | important {gap word gap' : List Char} (hgap : ∀ c ∈ gap, isSpace c = true)
      (hword : sameWord word "important".toList = true) (hgap' : ∀ c ∈ gap', isSpace c = true) :
      Mark ('!' :: (gap ++ (word ++ gap'))) true

/-- What is said between two semicolons: nothing, or the value of a name. -/
inductive Says : List Char → Option Declaration → Prop
  | nothing {gap : List Char} (hgap : ∀ c ∈ gap, isSpace c = true) : Says gap none
  | declaration {gap name gap' value mark : List Char} {important : Bool}
      (hgap : ∀ c ∈ gap, isSpace c = true) (hname : isIdentifier name = true)
      (hgap' : ∀ c ∈ gap', isSpace c = true) (hvalue : trim value ≠ []) (hbang : Bangless value)
      (hmark : Mark mark important) :
      Says (gap ++ (name ++ (gap' ++ ':' :: (value ++ mark))))
        (some ((Declaration.of (String.ofList name)
          (String.ofList (trim value))).withPriority important))

theorem isWhitespace_of_spaces (hw : ∀ c ∈ w, isSpace c = true) :
    ∀ l ∈ lex w, l.token = .whitespace := by
  by_cases hne : w = []
  · simp [hne, lex, lexFrom]
  · have hlex := lex_spaces (s := []) hw hne rfl
    rw [List.append_nil] at hlex
    rw [hlex]
    exact List.forall_mem_singleton.mpr rfl

theorem lex_spaces_append (hw : ∀ c ∈ w, isSpace c = true) (hs : s.takeWhile isSpace = []) :
    lex (w ++ s) = lex w ++ lex s := by
  by_cases hne : w = []
  · rw [hne]
    rfl
  · have hlex := lex_spaces (s := []) hw hne rfl
    rw [List.append_nil] at hlex
    rw [lex_spaces hw hne hs, hlex]
    rfl

theorem takeWhile_isSpace_identifier (h : isIdentifier v = true) (t : List Char) :
    (v ++ t).takeWhile isSpace = [] := by
  have hne : v ≠ [] := by
    rintro rfl
    contradiction
  exact takeWhile_append_of_head hne (fun c hc =>
    not_isSpace_of_isNameChar ((isIdentifier_iff.mp h).2 c (List.mem_of_head? hc))) t

theorem ne_of_isFree {p : Token → Bool} (h : Flat s) (hmem : ∀ l ∈ ls, l ∈ lex s)
    (hfree : isFree p [] ls = true) : ∀ l ∈ ls, p l.token = false := by
  induction ls with
  | nil => simp
  | cons l ls ih =>
    obtain ⟨hl, hls⟩ := isFree_cons.mp hfree
    have hopens := (token_of_flat h (hmem l List.mem_cons_self)).1
    have hnest : nest [] l.token = [] := by simp [nest, hopens]
    rw [hnest] at hls
    exact List.forall_mem_cons.mpr
      ⟨hl rfl, ih (fun m hm => hmem m (List.mem_cons_of_mem _ hm)) hls⟩

theorem bangless_of_isFree (h : Flat s) (hmem : ∀ l ∈ ls, l ∈ lex s)
    (hfree : isFree isBang [] ls = true) : Bangless (text ls) := by
  intro u w huw
  obtain ⟨front, l, back, a, b, rfl, hsource, rfl, rfl⟩ := exists_of_text_eq huw
  have hl : l ∈ lex s := hmem l (by simp)
  have hbang := ne_of_isFree h hmem hfree l (by simp)
  have hspelled := spelled_of_mem h.plain hl
  obtain hdelim | hopen :=
    eq_bang_of_mem hspelled (token_of_flat h hl).2.1 (by rw [hsource]; simp)
  · rw [hdelim] at hbang
    contradiction
  · -- The exclamation mark is the second of the four characters.
    rw [hsource] at hopen
    obtain ⟨rfl, rfl⟩ : a = ['<'] ∧ b = ['-', '-'] := by
      match a, hopen with
      | [x], hopen => simp_all
      | x :: y :: a, hopen =>
        have hmem : '!' ∈ ['-', '-'] := by
          rw [← (List.cons.inj (List.cons.inj hopen).2).2]
          simp
        simp at hmem
    exact ⟨⟨text front, rfl⟩, ⟨text back, rfl⟩⟩

theorem eq_angle_of_mem {l : Lexeme} {a : List Char} (h : Flat s) (hl : l ∈ lex s)
    (hsource : l.source = a ++ ['<']) : l.source = ['<'] := by
  have hspelled := spelled_of_mem h.plain hl
  obtain ⟨htoken, -⟩ | hfixed := mark_of_mem (c := '<') hspelled (token_of_flat h hl).2.1
    (by rw [hsource]; simp) (by decide) (by decide) (by decide)
  · rw [htoken] at hspelled
    exact hspelled.1
  · have hlast : l.source.getLast? = some '<' := by rw [hsource, List.getLast?_concat]
    generalize l.source = w at hfixed hlast
    generalize l.token = t at hfixed
    cases t <;> simp only [spelling?, Option.some.injEq, reduceCtorEq] at hfixed
    case opening b | closing b => cases b <;> simp at hfixed <;> subst hfixed <;> simp at hlast
    all_goals subst hfixed; simp at hlast

theorem bangless_of_not_mem (h : '!' ∉ v) : Bangless v := by
  rintro u w rfl
  simp at h

theorem isFree_of_bangless (h : Flat v) (hv : Bangless v) : isFree isBang [] (lex v) = true := by
  refine isFree_of_forall fun l hl => ?_
  by_contra hbang
  have htoken := isBang_iff.mp (by simpa using hbang)
  obtain ⟨front, back, hlex⟩ := List.append_of_mem hl
  have hsource : l.source = ['!'] := by
    have hspelled := spelled_of_mem h.plain hl
    rw [htoken] at hspelled
    exact hspelled.1
  have htext : v = text front ++ '!' :: text back := by
    rw [← text_lex v, hlex, text_append, text_cons, hsource, List.singleton_append]
  obtain ⟨⟨u, hu⟩, ⟨w, hw⟩⟩ := hv _ _ htext
  -- The token before it is an angle bracket, and together they are read as a mark `<!--`.
  obtain ⟨init, m, tail, a, b, rfl, hm, -, hb⟩ := exists_of_text_eq hu.symm
  obtain ⟨rfl, htail⟩ := List.append_eq_nil_iff.mp hb.symm
  have hmem : m ∈ lex v := by simp [hlex]
  have htail : tail = [] :=
    eq_nil_of_text (s := v) (fun n hn => by simp [hlex, hn]) htail
  have hrest : lex v = init ++ m :: l :: back := by simp [hlex, htail]
  have hread := lex_text_of_append hrest
  rw [text_cons, text_cons, eq_angle_of_mem h hmem hm, hsource, ← hw] at hread
  have hopen : lex (['<'] ++ (['!'] ++ (['-', '-'] ++ w))) =
      ⟨.commentOpen, ['<', '!', '-', '-']⟩ :: lex w := by
    rw [List.singleton_append, lex_cons]
    rfl
  rw [hopen] at hread
  have hm' : m.source = ['<', '!', '-', '-'] := by rw [← (List.cons.inj hread).1]
  rw [eq_angle_of_mem h hmem hm] at hm'
  contradiction

theorem source_of_ident {name word : List Char} (h : Flat s) (hl : ⟨.ident name, word⟩ ∈ lex s) :
    word = name ∧ isIdentifier name = true := by
  have hident := isIdentifier_of_mem h.plain hl rfl
  have hname : name = word := by
    refine (spelled_of_mem h.plain hl).2.trans
      ((List.map_congr_left fun c hc => ?_).trans (List.map_id _))
    refine clean_eq ?_
    rintro rfl
    exact h.not_mem (by decide) ((source_within hl).subset hc)
  rw [hname]
  exact ⟨rfl, hident⟩

theorem isLetter_of_important (h : sameWord w "important".toList = true) :
    ∀ c ∈ w, isLetter c = true :=
  isLetter_of_sameWord (by decide) h

theorem isIdentifier_of_important (h : sameWord w "important".toList = true) :
    isIdentifier w = true := by
  refine isIdentifier_of_isLetter ?_ (isLetter_of_important h)
  rintro rfl
  exact absurd h (by decide)

theorem dropWhile_of_forall_append {α : Type} {p : α → Bool} {as bs : List α}
    (h : ∀ a ∈ as, p a = true) (hb : ∀ b ∈ bs.head?, p b = false) :
    (as ++ bs).dropWhile p = bs := by
  rw [List.dropWhile_append_of_pos h]
  cases bs with
  | nil => rfl
  | cons b bs => simp [hb b rfl]

theorem afterTrivia_spaces (hw : ∀ c ∈ w, isSpace c = true) {ms : List Lexeme}
    (hms : ∀ m ∈ ms.head?, m.isTrivia = false) : afterTrivia (lex w ++ ms) = ms := by
  refine dropWhile_of_forall_append (fun l hl => ?_) hms
  exact isTrivia_iff.mpr (.inr (isWhitespace_of_spaces hw l hl))

theorem Mark.startsApart {mark : List Char} (h : Mark mark important) :
    startsApart mark = true := by
  cases h with
  | normal => rfl
  | @important gap word gap' hgap hword hgap' =>
    have hhead : ∀ c ∈ (gap ++ (word ++ gap')).head?, c ≠ '-' := by
      rintro c hc rfl
      cases gap with
      | cons d gap =>
        cases hc
        exact absurd (hgap '-' List.mem_cons_self) (by decide)
      | nil =>
        cases word with
        | cons d word =>
          cases hc
          exact absurd (isLetter_of_important hword '-' List.mem_cons_self) (by decide)
        | nil => exact absurd hword (by decide)
    generalize gap ++ (word ++ gap') = rest at hhead
    cases rest with
    | nil => rfl
    | cons c rest => simp [Token.startsApart, List.isPrefixOf, (hhead c rfl).symm]

theorem hasPriority_of_mark {mark : List Char} (hflat : Flat mark) (h : Mark mark important) :
    HasPriority (lex mark) important := by
  cases h with
  | normal => exact .normal
  | @important gap word gap' hgap hword hgap' =>
    have hident := isIdentifier_of_important hword
    have hnull : '\x00' ∉ word := fun hm =>
      hflat.not_mem (c := '\x00') (by decide) (by simp [hm])
    have hapart : Token.startsApart gap' = true := by
      cases gap' with
      | nil => rfl
      | cons c r => exact startsApart_space (hgap' c List.mem_cons_self) r
    have hlex : lex (gap ++ (word ++ gap')) = lex gap ++ (⟨.ident word, word⟩ :: lex gap') := by
      rw [lex_spaces_append hgap (takeWhile_isSpace_identifier hident gap'),
        lex_identifier_append hident hnull hapart]
    rw [lex_bang, hlex]
    refine .important (afterTrivia_spaces hgap (by simp [Lexeme.isTrivia, Token.isTrivia])) hword ?_
    rw [← List.append_nil (lex gap')]
    exact afterTrivia_spaces hgap' (by simp)

theorem mark_of_hasPriority {bang : Lexeme} (h : Flat s) (hmem : ∀ l ∈ bang :: ls, l ∈ lex s)
    (hbang : isBang bang.token = true) (hp : HasPriority (bang :: ls) important) :
    Mark (text (bang :: ls)) important := by
  have hsource : bang.source = ['!'] := by
    have hspelled := spelled_of_mem h.plain (hmem bang List.mem_cons_self)
    rw [isBang_iff.mp hbang] at hspelled
    exact hspelled.1
  cases hp with
  | @important _ _ rest word source hword hsame hrest =>
    obtain ⟨lead, rfl, hlead⟩ := exists_lead hword
    obtain ⟨trail, htrail, hspaces⟩ := exists_lead hrest
    rw [List.append_nil] at htrail
    obtain ⟨rfl, -⟩ := source_of_ident h (hmem ⟨.ident word, source⟩ (by simp))
    have hgap : ∀ c ∈ text lead, isSpace c = true :=
      isSpace_of_flat h (fun l hl => hmem l (by simp [hl])) fun l hl => .inl (hlead l hl)
    have hgap' : ∀ c ∈ text rest, isSpace c = true :=
      isSpace_of_flat h (fun l hl => hmem l (by simp [hl]))
        fun l hl => .inl (hspaces l (htrail ▸ hl))
    rw [text_cons, hsource, text_append, text_cons]
    exact @Mark.important (text lead) source (text rest) hgap hsame hgap'

theorem exists_value_of_hasBody {value : List Char} (h : Flat s) (hmem : ∀ l ∈ ls, l ∈ lex s)
    (hbody : HasBody ls value important) : ∃ v mark, text ls = v ++ mark ∧ trim v = value ∧
      Bangless v ∧ Mark mark important := by
  have htrim := hbody.trimmed
  have hpriority := hbody.priority
  obtain ⟨hfree, hbefore, honward⟩ | ⟨front, bang, back, rfl, hfree, -, hbang, hbefore, honward⟩ :=
    search_cases isBang [] ls
  · rw [hbefore] at htrim
    rw [honward] at hpriority
    cases hpriority
    exact ⟨text ls, [], (List.append_nil _).symm, htrim, bangless_of_isFree h hmem hfree, .normal⟩
  · rw [hbefore] at htrim
    rw [honward] at hpriority
    exact ⟨text front, text (bang :: back), text_append _ _, htrim,
      bangless_of_isFree h (fun l hl => hmem l (by simp [hl])) hfree,
      mark_of_hasPriority h (fun l hl => hmem l (List.mem_append_right _ hl)) hbang hpriority⟩

theorem hasBody_of_mark {mark : List Char} (h : Flat (v ++ mark)) (hne : trim v ≠ [])
    (hv : Bangless v) (hmark : Mark mark important) :
    HasBody (lex (v ++ mark)) (trim v) important := by
  have hvalue : Flat v := h.of_infix (List.prefix_append v mark).isInfix
  have hpriority := hasPriority_of_mark (h.of_infix (List.suffix_append v mark).isInfix) hmark
  have hfree := isFree_of_bangless hvalue hv
  have hlex : lex (v ++ mark) = lex v ++ lex mark := by
    refine hvalue.lex_append ⟨hmark.startsApart, fun _ => ?_⟩
    cases hmark <;> rfl
  have hstart : before isBang [] (lex mark) = [] ∧ onward isBang [] (lex mark) = lex mark := by
    cases hmark with
    | normal => exact ⟨rfl, rfl⟩
    | important => simp [lex_bang, before, onward, isBang]
  refine ⟨?_, hne, ?_⟩ <;> rw [hlex]
  · rw [before_append hfree, nestAll_of_flat hvalue, hstart.1, List.append_nil, text_lex]
  · rwa [onward_append hfree, nestAll_of_flat hvalue, hstart.2]

theorem says_of_holds {ended : Bool} (h : Flat s) (hholds : Holds ⟨lex s, ended⟩ o) :
    Says s o := by
  obtain ⟨pad, rest, hlex, hpad, hrest⟩ : ∃ pad rest, lex s = pad ++ rest ∧
      (∀ l ∈ pad, isPadding l = true) ∧ (lex s).dropWhile isPadding = rest :=
    ⟨_, _, List.takeWhile_append_dropWhile.symm, fun _ => List.mem_takeWhile_imp, rfl⟩
  have hgap : ∀ c ∈ text pad, isSpace c = true :=
    isSpace_of_flat h (fun l hl => by simp [hlex, hl]) fun l hl => by
      simpa [isPadding] using hpad l hl
  have htext : s = text pad ++ text rest := by rw [← text_append, ← hlex, text_lex]
  cases hholds with
  | nothing hnil =>
    obtain rfl := hrest.symm.trans hnil
    rw [htext, text_nil, List.append_nil]
    exact .nothing hgap
  | @declaration name word ls d hcons hd =>
    obtain rfl := hrest.symm.trans hcons
    obtain ⟨hcolon, hbody⟩ := hd
    rename_i source value ms important
    obtain ⟨lead, rfl, htrivia⟩ := exists_lead hcolon
    have hmem (l) (hl : l ∈ lead ++ ⟨.colon, source⟩ :: ms) : l ∈ lex s := by
      rw [hlex]
      exact List.mem_append_right _ (List.mem_cons_of_mem _ hl)
    have hword : ⟨.ident name, word⟩ ∈ lex s := by simp [hlex]
    obtain ⟨rfl, hname⟩ := source_of_ident h hword
    obtain rfl : source = [':'] :=
      eq_of_spelling (spelled_of_mem h.plain (hmem ⟨.colon, source⟩ (by simp))) rfl
    obtain ⟨v, mark, hms, rfl, hv, hmark⟩ :=
      exists_value_of_hasBody h (fun l hl => hmem l (by simp [hl])) hbody
    rw [htext, text_cons, text_append, text_cons, hms]
    exact .declaration hgap hname (isSpace_of_flat h (fun l hl => hmem l (by simp [hl]))
      fun l hl => .inl (htrivia l hl)) hbody.filled hv hmark

theorem holds_of_says (ended : Bool) (h : Flat s) (hsaid : Says s o) :
    Holds ⟨lex s, ended⟩ o := by
  cases hsaid with
  | nothing hgap =>
    refine .nothing (List.dropWhile_eq_nil_iff.mpr fun l hl => ?_)
    simp [isPadding, Lexeme.isTrivia, Token.isTrivia, isWhitespace_of_spaces hgap l hl]
  | @declaration gap name gap' value mark important hgap hname hgap' hvalue hbang hmark =>
    have hnull : '\x00' ∉ name := fun hm => h.not_mem (c := '\x00') (by decide) (by simp [hm])
    have hbody : Flat (value ++ mark) := by
      refine h.of_infix (List.IsSuffix.isInfix ⟨gap ++ (name ++ (gap' ++ [':'])), ?_⟩)
      simp
    have hapart : Token.startsApart (gap' ++ ':' :: (value ++ mark)) = true := by
      cases gap' with
      | nil => rfl
      | cons c r => exact startsApart_space (hgap' c List.mem_cons_self) _
    have hlex : lex (gap ++ (name ++ (gap' ++ ':' :: (value ++ mark)))) =
        lex gap ++ ⟨.ident name, name⟩ :: (lex gap' ++ ⟨.colon, [':']⟩ :: lex (value ++ mark)) := by
      rw [lex_spaces_append hgap (takeWhile_isSpace_identifier hname _),
        lex_identifier_append hname hnull hapart, lex_spaces_append hgap' rfl, lex_colon]
    rw [hlex]
    refine .declaration (dropWhile_of_forall_append (fun l hl => ?_) ?_)
      (.of (afterTrivia_spaces hgap' ?_) (hasBody_of_mark hbody hvalue hbang hmark))
    · simp [isPadding, Lexeme.isTrivia, Token.isTrivia, isWhitespace_of_spaces hgap l hl]
    all_goals simp [isPadding, Lexeme.isTrivia, Token.isTrivia]

/-- An item of a flat text holds what it says. -/
theorem holds_iff {ended : Bool} (h : Flat s) : Holds ⟨lex s, ended⟩ o ↔ Says s o :=
  ⟨says_of_holds h, holds_of_says ended h⟩

theorem isFree_semicolon_of_not_mem (h : Flat s) (hs : ';' ∉ s) :
    isFree isSemicolon [] (lex s) = true := by
  refine isFree_of_forall fun l hl => ?_
  by_contra hsemi
  have htoken := isSemicolon_iff.mp (by simpa using hsemi)
  have hspelled := spelled_of_mem h.plain hl
  rw [htoken] at hspelled
  have hsource : l.source = [';'] := eq_of_spelling hspelled rfl
  exact hs ((source_within hl).subset (by rw [hsource]; simp))

theorem collect_eq_ok_iff (h : Flat s) (location : Location) (ds : List Declaration) :
    collect location (items [] (lex s)) = .ok ds ↔
      ∃ os, List.Forall₂ Says (s.splitOn ';') os ∧ ds = os.reduceOption := by
  induction s using splitOn_induction ';' generalizing location ds with
  | last s hs =>
    rw [items_eq_singleton (isFree_semicolon_of_not_mem h hs), List.splitOn_eq_singleton hs,
      collect_cons_eq_ok]
    simp only [holds_iff h, collect]
    constructor
    · rintro ⟨o, rest, hsaid, hrest, rfl⟩
      cases hrest
      exact ⟨[o], .cons hsaid .nil, by cases o <;> rfl⟩
    · rintro ⟨os, hos, rfl⟩
      cases hos with
      | @cons _ o _ _ hsaid hnil =>
        cases hnil
        exact ⟨o, [], hsaid, rfl, by cases o <;> rfl⟩
  | step a b ha ih =>
    have hflat : Flat a := h.of_infix (List.prefix_append a _).isInfix
    have hflat' : Flat b := h.of_infix (List.IsSuffix.isInfix ⟨a ++ [';'], by simp⟩)
    rw [hflat.lex_append_mark (by decide) rfl, lex_semicolon, splitOn_append_cons ha,
      items_append_semicolon (isFree_semicolon_of_not_mem hflat ha) (nestAll_of_flat hflat) rfl,
      collect_cons_eq_ok]
    simp only [holds_iff hflat, ih hflat']
    constructor
    · rintro ⟨o, rest, hsaid, ⟨os, hos, rfl⟩, rfl⟩
      exact ⟨o :: os, .cons hsaid hos, by cases o <;> rfl⟩
    · rintro ⟨os, hos, rfl⟩
      cases hos with
      | @cons _ o _ os hsaid hos =>
        exact ⟨o, _, hsaid, ⟨os, hos, rfl⟩, by cases o <;> rfl⟩

theorem forall₂_iff_forall_exists {α β : Type} {r : α → β → Prop} {as : List α} :
    (∃ bs, List.Forall₂ r as bs) ↔ ∀ a ∈ as, ∃ b, r a b := by
  induction as with
  | nil => simp
  | cons a as ih =>
    rw [List.forall_mem_cons, ← ih]
    constructor
    · rintro ⟨_, hbs⟩
      cases hbs with
      | cons hb hbs => exact ⟨⟨_, hb⟩, _, hbs⟩
    · rintro ⟨⟨b, hb⟩, bs, hbs⟩
      exact ⟨b :: bs, .cons hb hbs⟩

/-- A flat text is accepted just if all its items say something, and it is read as what they say. -/
theorem read_flat_iff {t : String} (h : Flat t.toList) :
    ((∃ ds, read t = .ok ds) ↔ ∀ i ∈ t.toList.splitOn ';', ∃ o, Says i o) ∧
      ∀ ds, read t = .ok ds ↔
        ∃ os, List.Forall₂ Says (t.toList.splitOn ';') os ∧ ds = os.reduceOption := by
  have hread (ds) := collect_eq_ok_iff h .start ds
  refine ⟨?_, hread⟩
  rw [← forall₂_iff_forall_exists]
  constructor
  · rintro ⟨ds, hds⟩
    obtain ⟨os, hos, -⟩ := (hread ds).mp hds
    exact ⟨os, hos⟩
  · rintro ⟨os, hos⟩
    exact ⟨_, (hread _).mpr ⟨os, hos, rfl⟩⟩

theorem read_flat_iff_width :
    Flat "Width : 1px! Important; ".toList ∧
      read "Width : 1px! Important; " = .ok [⟨"width", "1px", true⟩] := by
  have h : Flat "Width : 1px! Important; ".toList := by decide
  have hspace : ∀ c ∈ [' '], isSpace c = true := List.forall_mem_singleton.mpr rfl
  have hmark : Mark "! Important".toList true :=
    @Mark.important [' '] "Important".toList [] hspace (by decide) (by simp)
  have hwidth : Says "Width : 1px! Important".toList (some ⟨"width", "1px", true⟩) :=
    @Says.declaration [] "Width".toList [' '] " 1px".toList _ _ (by simp) (by decide) hspace
      (by decide) (bangless_of_not_mem (by decide)) hmark
  have hsplit : "Width : 1px! Important; ".toList.splitOn ';' =
      ["Width : 1px! Important".toList, [' ']] := by decide
  refine ⟨h, ((read_flat_iff h).2 _).mpr ⟨[some ⟨"width", "1px", true⟩, none], ?_, rfl⟩⟩
  rw [hsplit]
  exact .cons hwidth (.cons (.nothing hspace) .nil)

/-- An exclamation mark within a mark `<!--` begins no priority. -/
theorem not_reject_comment_open :
    Flat "a:<!--".toList ∧ "a:<!--".toList.splitOn ';' = ["a:<!--".toList] ∧
      (∃ c ∈ "a:<!--".toList, isSpace c = false) ∧
      (¬∃ gap name gap' value mark important, "a:<!--".toList =
          gap ++ (name ++ (gap' ++ ':' :: (value ++ mark))) ∧ (∀ c ∈ gap, isSpace c = true) ∧
          isIdentifier name = true ∧ (∀ c ∈ gap', isSpace c = true) ∧ '!' ∉ value ∧
          trim value ≠ [] ∧ Mark mark important) ∧
      read "a:<!--" = .ok [⟨"a", "<!--", false⟩] := by
  refine ⟨by decide, by decide, ⟨'a', by decide, by decide⟩, ?_, by decide⟩
  rintro ⟨gap, name, gap', value, mark, important, htext, hgap, hname, hgap', hvalue, -, hmark⟩
  have hbang : '!' ∈ gap ++ (name ++ (gap' ++ ':' :: (value ++ mark))) := by
    rw [← htext]
    decide
  cases hmark with
  | normal =>
    have hmem : '!' ∈ gap ∨ '!' ∈ name ∨ '!' ∈ gap' ∨ '!' ∈ value := by simpa using hbang
    obtain hm | hm | hm | hm := hmem
    · exact absurd (hgap _ hm) (by decide)
    · exact not_mem_of_isIdentifier hname (by decide) hm
    · exact absurd (hgap' _ hm) (by decide)
    · exact hvalue hm
  | important hspaces hword hspaces' =>
    -- The word alone is longer than the text.
    have hlength := congrArg List.length (sameWord_iff.mp hword)
    have htotal := congrArg List.length htext
    simp [lower] at hlength htotal
    omega

end StyleFold.Reader.Strict
