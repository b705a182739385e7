import StyleFold.Proofs.Reader.Accepted
import StyleFold.Proofs.Reader.Matching
import StyleFold.Proofs.Text.Letters
import StyleFold.Reader

/-!
The two readers agree on the lists that the strict one accepts, where semicolons and exclamation
marks stand outside all strings, addresses and brackets.
-/
namespace StyleFold.Reader
open Text Lexeme Token Pattern Strict Lenient

variable {c : Char} {p : Token → Bool} {stack : List Bracket} {l : Lexeme} {ls ms : List Lexeme}
  {n : Nat} {first : Bool}

/-- Whether every `c` lies outside all strings, addresses, comments and brackets. -/
def isOutside (c : Char) : List Bracket → List Lexeme → Bool
  | _, [] => true
  | stack, l :: ls =>
    (!l.source.contains c || stack.isEmpty && !isTextual l.token) &&
      isOutside c (nest stack l.token) ls

theorem isOutside_cons : isOutside c stack (l :: ls) = true ↔
    (c ∈ l.source → stack = [] ∧ isTextual l.token = false) ∧
      isOutside c (nest stack l.token) ls = true := by
  simp [isOutside, imp_iff_not_or]

theorem isOutside_append : isOutside c stack (ls ++ ms) = true ↔
    isOutside c stack ls = true ∧ isOutside c (nestAll stack ls) ms = true := by
  induction ls generalizing stack with
  | nil => simp [isOutside]
  | cons l ls ih =>
    rw [List.cons_append, isOutside_cons, isOutside_cons, ih, and_assoc, nestAll_cons]

theorem isOutside_behind (hls : nestAll [] ls = []) (ho : isOutside c [] (ls ++ l :: ms) = true) :
    isOutside c (nest [] l.token) ms = true := by
  have hbehind := (isOutside_append.mp ho).2
  rw [hls] at hbehind
  exact (isOutside_cons.mp hbehind).2

theorem token_of_isOutside (ho : isOutside c stack ls = true) (hf : isFree p stack ls = true)
    (hl : l ∈ ls) (hc : c ∈ l.source) : p l.token = false ∧ isTextual l.token = false := by
  induction ls generalizing stack with
  | nil => simp at hl
  | cons m ls ih =>
    obtain ⟨hm, ho⟩ := isOutside_cons.mp ho
    obtain ⟨hp, hf⟩ := isFree_cons.mp hf
    obtain rfl | hl := List.mem_cons.mp hl
    · exact ⟨hp (hm hc).1, (hm hc).2⟩
    · exact ih ho hf hl

theorem not_isGap_of_isNameChar (h : isNameChar c = true) : isGap c = false := by
  rw [isGap, not_isSpace_of_isNameChar h, Bool.false_or, beq_eq_false_iff_ne]
  rintro rfl
  exact absurd h (by decide)

structure Plain (ls : List Lexeme) : Prop where
  spelled : ∀ l ∈ ls, Spelled l.token l.source
  uncommented : ∀ l ∈ ls, l.token ≠ .comment

namespace Plain

theorem append_iff : Plain (ls ++ ms) ↔ Plain ls ∧ Plain ms :=
  ⟨fun ⟨hs, hc⟩ => ⟨⟨fun l hl => hs l (List.mem_append_left _ hl),
      fun l hl => hc l (List.mem_append_left _ hl)⟩,
    ⟨fun l hl => hs l (List.mem_append_right _ hl),
      fun l hl => hc l (List.mem_append_right _ hl)⟩⟩,
    fun ⟨h, h'⟩ => ⟨List.forall_mem_append.mpr ⟨h.spelled, h'.spelled⟩,
      List.forall_mem_append.mpr ⟨h.uncommented, h'.uncommented⟩⟩⟩

theorem cons_iff : Plain (l :: ls) ↔
    (Spelled l.token l.source ∧ l.token ≠ .comment) ∧ Plain ls :=
  ⟨fun ⟨hs, hc⟩ => ⟨⟨hs l List.mem_cons_self, hc l List.mem_cons_self⟩,
      ⟨fun m hm => hs m (List.mem_cons_of_mem _ hm), fun m hm => hc m (List.mem_cons_of_mem _ hm)⟩⟩,
    fun ⟨h, h'⟩ => ⟨List.forall_mem_cons.mpr ⟨h.1, h'.spelled⟩,
      List.forall_mem_cons.mpr ⟨h.2, h'.uncommented⟩⟩⟩

theorem gap_of_isTrivia (h : Plain ls) (ht : ∀ l ∈ ls, l.isTrivia = true) :
    ∀ c ∈ text ls, isGap c = true := by
  intro c hc
  obtain ⟨l, hl, hc⟩ := List.mem_flatMap.mp hc
  have hs := h.spelled l hl
  have hn := h.uncommented l hl
  have hw := ht l hl
  obtain ⟨t, w⟩ := l
  cases t <;> simp_all [Lexeme.isTrivia, Token.isTrivia]
  exact isGap_of_isSpace (hs c hc)

theorem skip_of_isPadding (h : Plain ls) (hp : ∀ l ∈ ls, isPadding l = true) :
    ∀ c ∈ text ls, isNameLetter c = false := by
  intro c hc
  obtain ⟨l, hl, hc⟩ := List.mem_flatMap.mp hc
  have hs := h.spelled l hl
  have hn := h.uncommented l hl
  have hw := hp l hl
  obtain ⟨t, w⟩ := l
  cases t <;> simp_all [isPadding, Lexeme.isTrivia, Token.isTrivia]
  · exact isNameLetter_of_isGap (isGap_of_isSpace (hs c hc))
  · simp only [Spelled, spelling?, Option.some.injEq] at hs
    subst hs
    rw [List.mem_singleton.mp hc]
    decide

theorem not_mem_semicolon (h : Plain ls) (ho : isOutside ';' stack ls = true)
    (hf : isFree isSemicolon stack ls = true) : ';' ∉ text ls := by
  intro hc
  obtain ⟨l, hl, hc⟩ := List.mem_flatMap.mp hc
  obtain ⟨hp, ht⟩ := token_of_isOutside ho hf hl hc
  rw [eq_semicolon_of_mem (h.spelled l hl) ht hc] at hp
  exact absurd hp (by decide)

theorem unmarked (h : Plain ls) (ho : isOutside '!' stack ls = true)
    (hf : isFree isBang stack ls = true) : Unmarked (text ls) := by
  induction ls generalizing stack with
  | nil => simp [Unmarked]
  | cons l ls ih =>
    obtain ⟨hl, hls⟩ := cons_iff.mp h
    have ih := ih hls (isOutside_cons.mp ho).2 (isFree_cons.mp hf).2
    intro u v huv
    rw [text_cons] at huv
    obtain ⟨w, rfl, hw⟩ | ⟨w, hw, hv⟩ := List.append_eq_append_iff.mp huv
    · exact ih w v hw
    · cases w with
      | nil => exact ih [] v hv.symm
      | cons d w =>
        obtain ⟨rfl, rfl⟩ := List.cons.inj hv
        have hmem : '!' ∈ l.source := by simp [hw]
        obtain ⟨hp, ht⟩ := token_of_isOutside ho hf List.mem_cons_self hmem
        obtain htok | hsrc := eq_bang_of_mem hl.1 ht hmem
        · rw [htok] at hp
          exact absurd hp (by decide)
        · have hw : w = ['-', '-'] := by
            rw [hsrc] at hw
            rcases u with _ | ⟨a, _ | ⟨b, _ | ⟨d, _ | ⟨e, u⟩⟩⟩⟩ <;> simp_all
          rw [hw]
          rfl

end Plain

theorem isNameLetter_of_toLower (h : isNameLetter c.toLower = true) : isNameLetter c = true := by
  obtain hc | hc := isLetter_or_toLower_eq c
  · simp [isNameLetter, hc]
  · rwa [hc] at h

theorem source_of_important {word source : List Char} (h : Spelled (.ident word) source)
    (hw : sameWord word "important".toList = true) :
    sameWord source "important".toList = true ∧ Stripped source := by
  have hword : replacement ∉ source.map clean := by
    rw [← h.2]
    intro hm
    have := List.mem_map_of_mem (f := Char.toLower) hm
    rw [← lower, sameWord_iff.mp hw] at this
    exact absurd this (by decide)
  have hsource : word = source := h.2.trans (map_clean_eq hword)
  subst hsource
  have hchar : ∀ c ∈ word, isGap c = false := fun c hc => not_isGap_of_isNameChar (h.1 c hc)
  refine ⟨hw, ?_, fun c hc => hchar c (List.mem_of_head? hc),
    fun c hc => hchar c (List.mem_of_getLast? hc)⟩
  rintro rfl
  exact absurd hw (by decide)

theorem exists_important {important : Bool} (hp : HasPriority (l :: ls) important)
    (h : Plain (l :: ls)) (hbang : isBang l.token = true) : important = true ∧ ∃ gap word gap',
      text (l :: ls) = '!' :: (gap ++ (word ++ gap')) ∧ (∀ c ∈ gap, isGap c = true) ∧
        sameWord word "important".toList = true ∧ Stripped word ∧ ∀ c ∈ gap', isGap c = true := by
  obtain ⟨⟨hsource, -⟩, hls⟩ := Plain.cons_iff.mp h
  rw [isBang_iff.mp hbang] at hsource
  obtain ⟨hsource, -⟩ := hsource
  cases hp with
  | important hword hsame hrest =>
    rename_i rest word source
    obtain ⟨lead, rfl, htrivia⟩ := exists_lead hword
    obtain ⟨hlead, ⟨hspelled, -⟩, hrest'⟩ := Plain.append_iff.mp hls |>.imp_right Plain.cons_iff.mp
    obtain ⟨hsame', hstripped⟩ := source_of_important hspelled hsame
    have hempty : rest.dropWhile Lexeme.isTrivia = [] := hrest
    refine ⟨rfl, text lead, source, text rest, ?_, hlead.gap_of_isTrivia htrivia, hsame', hstripped,
      hrest'.gap_of_isTrivia (by simpa using hempty)⟩
    simp [text_cons, text_append, hsource]

theorem exists_value {value : List Char} {important : Bool} (hb : HasBody ls value important)
    (h : Plain ls) (ho : isOutside '!' [] ls = true) :
    ∃ gap core gap', text ls = gap ++ (core ++ gap') ∧ (∀ c ∈ gap, isGap c = true) ∧
      Stripped core ∧ (∀ c ∈ gap', isGap c = true) ∧ trim (splitPriority core).1 = value ∧
      (splitPriority core).2 = important := by
  obtain ⟨htrim, hfilled, hpriority⟩ := hb
  obtain ⟨a, m, b, hsplit, hm, ha, hb, htrim'⟩ := exists_stripped (htrim ▸ hfilled)
  rw [htrim] at htrim'
  obtain ⟨hf, hbefore, honward⟩ | ⟨front, bang, back, rfl, hf, hn, hbang, hbefore, honward⟩ :=
    search_cases isBang [] ls
  · rw [hbefore] at hsplit
    rw [honward] at hpriority
    cases hpriority
    have hunmarked : Unmarked m := (hsplit ▸ h.unmarked ho hf).of_pad hb
    have hpieces := splitPriority_normal hunmarked.not_endsMarked
    exact ⟨a, m, b, hsplit, ha, hm, hb, by rwa [hpieces], by rw [hpieces]⟩
  · rw [hbefore] at hsplit
    rw [honward] at hpriority
    obtain ⟨rfl, gap, word, gap', htext, hgap, hsame, hword, hgap'⟩ :=
      exists_important hpriority (Plain.append_iff.mp h).2 hbang
    have hpieces := splitPriority_important hm.last ⟨b, gap, word, rfl, hb, hgap, hsame⟩
    refine ⟨a, m ++ (b ++ '!' :: (gap ++ word)), gap', ?_, ha, ?_, hgap', by rwa [hpieces],
      by rw [hpieces]⟩
    · simp [text_append, hsplit, htext]
    · have hcore : b ++ '!' :: (gap ++ word) = (b ++ '!' :: gap) ++ word := by simp
      rw [hcore]
      exact hm.append hword _

theorem isNameLetter_of_lowercase {name : List Char}
    (h : ∀ c ∈ (Declaration.lowercase (String.ofList name)).toList, isNameLetter c = true) :
    ∀ c ∈ name, isNameLetter c = true := by
  intro c hc
  refine isNameLetter_of_toLower (h _ ?_)
  rw [Declaration.lowercase, String.toList_ofList, String.toList_ofList]
  exact List.mem_map_of_mem hc

theorem declarationsFrom_of_declares {name word stop rest : List Char} {d : Declaration}
    (hd : Declares name ls d) (h : Plain (⟨.ident name, word⟩ :: ls)) (hword : word ≠ [])
    (ho : isOutside '!' [] ls = true) (hsemi : ';' ∉ text ls)
    (hletters : ∀ c ∈ d.property.toList, isNameLetter c = true)
    (hstop : Ends stop rest) :
    declarationsFrom n first (word ++ (text ls ++ (stop ++ rest))) =
      d :: declarationsFrom n false rest := by
  obtain ⟨hcolon, hbody⟩ := hd
  rename_i source value ms important
  obtain ⟨lead, rfl, htrivia⟩ := exists_lead hcolon
  obtain ⟨⟨hname, -⟩, hplain⟩ := Plain.cons_iff.mp h
  obtain ⟨hlead, ⟨hsource, -⟩, hms⟩ := Plain.append_iff.mp hplain |>.imp_right Plain.cons_iff.mp
  obtain rfl : source = [':'] := eq_of_spelling hsource rfl
  have hname' := isNameLetter_of_lowercase hletters
  have hclean : replacement ∉ word.map clean := fun hm =>
    absurd (hname' replacement (by rw [hname.2]; exact hm)) (by decide)
  obtain rfl : name = word := hname.2.trans (map_clean_eq hclean)
  have hstack : nestAll [] lead = [] := nestAll_eq_nil fun l hl => opens_of_isTrivia (htrivia l hl)
  have homs : isOutside '!' [] ms = true := isOutside_behind hstack ho
  obtain ⟨gap, core, gap', htext, hgap, hcore, hgap', hvalue, hpriority⟩ :=
    exists_value hbody hms homs
  have hsemi' : ';' ∉ core := fun hm => hsemi (by simp [text_append, htext, hm])
  have hfound : declarationsFrom n first (name ++ (text lead ++ ':' :: (gap ++ (core ++
      (gap' ++ (stop ++ rest)))))) = _ :=
    declarationsFrom_declaration hword hname' (hlead.gap_of_isTrivia htrivia) hgap hcore hsemi'
      hgap' hstop
  rw [declared, hvalue, hpriority] at hfound
  simpa only [text_append, text_cons, htext, List.append_assoc, List.cons_append,
    List.nil_append] using hfound

theorem declarationsFrom_padding {stop rest : List Char} (h : Plain ls)
    (hpad : ∀ l ∈ ls, isPadding l = true) (hstop : Ends stop rest) :
    declarationsFrom n first (text ls ++ (stop ++ rest)) = declarationsFrom n false rest := by
  rw [declarationsFrom_skip (h.skip_of_isPadding hpad), declarationsFrom_ends hstop]

/-- The lenient reader finds in an item what the strict one reads in it. -/
theorem declarationsFrom_item {ended : Bool} {o : Option Declaration} {stop rest : List Char}
    (hi : Holds ⟨ls, ended⟩ o) (h : Plain ls) (hsource : ∀ l ∈ ls, l.source ≠ [])
    (hf : isFree isSemicolon [] ls = true) (hsemi : isOutside ';' [] ls = true)
    (hbang : isOutside '!' [] ls = true)
    (hletters : ∀ d ∈ o, ∀ c ∈ d.property.toList, isNameLetter c = true)
    (hstop : Ends stop rest) :
    declarationsFrom n first (text ls ++ (stop ++ rest)) =
      o.toList ++ declarationsFrom n false rest := by
  have hsemi' := h.not_mem_semicolon hsemi hf
  cases hi with
  | nothing hpad => exact declarationsFrom_padding h (by simpa using hpad) hstop
  | declaration hident hd =>
    rename_i name word ms d
    dsimp only at hident
    obtain ⟨pad, rfl, hpad⟩ : ∃ pad, ls = pad ++ ⟨.ident name, word⟩ :: ms ∧
        ∀ l ∈ pad, isPadding l = true :=
      ⟨ls.takeWhile isPadding, by rw [← hident]; exact List.takeWhile_append_dropWhile.symm,
        fun _ => List.mem_takeWhile_imp⟩
    obtain ⟨hpad', hms⟩ := Plain.append_iff.mp h
    have hstack : nestAll [] pad = [] := nestAll_eq_nil fun l hl => opens_of_isPadding (hpad l hl)
    have hbang' : isOutside '!' [] ms = true := isOutside_behind hstack hbang
    have hsemims : ';' ∉ text ms := fun hm => hsemi' (by simp [text_append, hm])
    have hword : word ≠ [] := hsource ⟨.ident name, word⟩ (by simp)
    rw [text_append, text_cons, List.append_assoc, List.append_assoc,
      declarationsFrom_skip (hpad'.skip_of_isPadding hpad),
      declarationsFrom_of_declares hd hms hword hbang' hsemims (hletters d rfl) hstop]
    rfl

theorem declarationsFrom_eq {location : Location} {ds : List Declaration} (h : Plain ls)
    (hsource : ∀ l ∈ ls, l.source ≠ []) (hsemi : isOutside ';' [] ls = true)
    (hbang : isOutside '!' [] ls = true) (hcollect : collect location (items [] ls) = .ok ds)
    (hletters : ∀ d ∈ ds, ∀ c ∈ d.property.toList, isNameLetter c = true) :
    declarationsFrom n first (text ls) = ds := by
  induction ls using items_induction generalizing location ds first with
  | last ls hf =>
    rw [items_eq_singleton hf] at hcollect
    obtain ⟨o, rest, hi, hrest, rfl⟩ := collect_cons_eq_ok.mp hcollect
    cases hrest
    have hitem : declarationsFrom n first (text ls ++ ([] ++ [])) = _ :=
      declarationsFrom_item hi h hsource hf hsemi hbang (fun d hd => hletters d (by simp_all))
        .text
    simpa [declarationsFrom, piecesFrom] using hitem
  | step front l back hf hn hl ih =>
    rw [items_append_semicolon hf hn hl] at hcollect
    obtain ⟨o, rest, hi, hrest, rfl⟩ := collect_cons_eq_ok.mp hcollect
    obtain ⟨hfront, hl', hback⟩ := Plain.append_iff.mp h |>.imp_right Plain.cons_iff.mp
    have hsource' := List.forall_mem_append.mp hsource
    have hsemis := isOutside_append.mp hsemi
    have hbangs := isOutside_append.mp hbang
    have htoken := isSemicolon_iff.mp hl
    have hnest : nest [] l.token = [] := by rw [htoken]; rfl
    have hsemicolon : l.source = [';'] := by
      have := hl'.1
      rw [htoken] at this
      exact eq_of_spelling this rfl
    rw [hn, isOutside_cons, hnest] at hsemis hbangs
    have hitem : declarationsFrom n first (text front ++ ([';'] ++ text back)) = _ :=
      declarationsFrom_item hi hfront hsource'.1 hf hsemis.1 hbangs.1
        (fun d hd => hletters d (by simp_all)) .semicolon
    rw [text_append, text_cons, hsemicolon, hitem, ih hback
      (fun m hm => hsource'.2 m (List.mem_cons_of_mem _ hm)) hsemis.2.2 hbangs.2.2 hrest
      fun d hd => hletters d (List.mem_append_right _ hd)]

/-- What the strict reader accepts the lenient one reads in the same way, where there are neither
escapes nor comments, every semicolon and exclamation mark stands outside strings, addresses and
brackets, and the names are made of letters and hyphens. -/
theorem read_lenient_of_strict {s : String} {ds : List Declaration} (hplain : '\\' ∉ s.toList)
    (hcomment : ¬['/', '*'] <:+: s.toList) (hsemi : isOutside ';' [] (lex s.toList) = true)
    (hbang : isOutside '!' [] (lex s.toList) = true) (hread : Reader.strict.read s = .ok ds)
    (hletters : ∀ d ∈ ds, ∀ c ∈ d.property.toList, isNameLetter c = true) :
    Reader.lenient.read s = .ok ds := by
  have h : Plain (lex s.toList) := by
    refine ⟨fun l hl => spelled_of_mem hplain hl, fun l hl htoken => hcomment ?_⟩
    have hl' := spelled_of_mem hplain hl
    rw [htoken] at hl'
    exact hl'.isInfix.trans (source_within hl)
  have hds : declarationsFrom s.toList.length true (text (lex s.toList)) = ds :=
    declarationsFrom_eq h (fun l hl => source_ne_nil hl) hsemi hbang hread hletters
  rw [text_lex] at hds
  rw [Reader.read, Lenient.read_eq, hds]

theorem read_lenient_of_strict_border :
    Reader.strict.read "border : thin <!--a;; Color:red ! IMPORTANT" =
        .ok [⟨"border", "thin <!--a", false⟩, ⟨"color", "red", true⟩] ∧
      Reader.lenient.read "border : thin <!--a;; Color:red ! IMPORTANT" =
        .ok [⟨"border", "thin <!--a", false⟩, ⟨"color", "red", true⟩] := by
  have h : Reader.strict.read "border : thin <!--a;; Color:red ! IMPORTANT" =
      .ok [⟨"border", "thin <!--a", false⟩, ⟨"color", "red", true⟩] := by decide
  exact ⟨h, read_lenient_of_strict (by decide) (by decide) (by decide) (by decide) h
    (by simp [isNameLetter, isLetter])⟩

end StyleFold.Reader
