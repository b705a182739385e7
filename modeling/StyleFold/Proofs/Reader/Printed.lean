import StyleFold.Proofs.Reader.Accepted
import StyleFold.Proofs.Reader.Contained
import StyleFold.Proofs.Text.Letters

/-! Printed declarations read back, alone and in front of more text. -/
namespace StyleFold.Reader.Strict
open Text Lexeme Token Declaration

variable {d : Declaration} {s : List Char}

def isLowercase (c : Char) : Bool :=
  'a' ≤ c && c ≤ 'z'

def isNamed : List Char → Bool
  | [] => false
  | c :: s => isLowercase c && s.all fun c => isLowercase c || isDigit c || c == '-'

/-- A declaration with a lowercase name and a trimmed value that keeps to itself. -/
structure Printable (d : Declaration) : Prop where
  named : isNamed d.property.toList = true
  filled : d.value.toList ≠ []
  trimmed : trim d.value.toList = d.value.toList
  contained : Contained d.value.toList

theorem Printable.iff_and : Printable d ↔ isNamed d.property.toList = true ∧
    d.value.toList ≠ [] ∧ trim d.value.toList = d.value.toList ∧ Contained d.value.toList :=
  ⟨fun ⟨h₁, h₂, h₃, h₄⟩ => ⟨h₁, h₂, h₃, h₄⟩, fun ⟨h₁, h₂, h₃, h₄⟩ => ⟨h₁, h₂, h₃, h₄⟩⟩

instance (d : Declaration) : Decidable (Printable d) :=
  decidable_of_iff _ Printable.iff_and.symm

def priorityLexemes : Bool → List Lexeme
  | true => [⟨.whitespace, [' ']⟩, ⟨.delim '!', ['!']⟩,
      ⟨.ident "important".toList, "important".toList⟩]
  | false => []

def printedLexemes (d : Declaration) : List Lexeme :=
  ⟨.ident d.property.toList, d.property.toList⟩ :: ⟨.colon, [':']⟩ :: ⟨.whitespace, [' ']⟩ ::
    (lex d.value.toList ++ priorityLexemes d.important)

theorem toList_print (d : Declaration) : d.print.toList =
    d.property.toList ++ ':' :: ' ' :: (d.value.toList ++
      ((if d.important then " !important" else "").toList ++ [';'])) := by
  simp [print, String.toList_append]

theorem isLowercase_cases {c : Char} (h : isLowercase c = true) :
    isNameStart c = true ∧ c ≠ '\x00' ∧ c.toLower = c := by
  simp only [isLowercase, Bool.and_eq_true, decide_eq_true_eq] at h
  refine ⟨by simp [isNameStart, isLetter, h], ?_, toLower_eq_self ?_⟩
  · rintro rfl
    exact absurd h.1 (by decide)
  · rintro ⟨-, hz⟩
    exact absurd (le_trans h.1 hz) (by decide)

theorem isNamed_cases {p : List Char} (h : isNamed p = true) : isWord p = true ∧ lower p = p := by
  cases p with
  | nil => simp [isNamed] at h
  | cons c s =>
    simp only [isNamed, Bool.and_eq_true, List.all_eq_true, Bool.or_eq_true, beq_iff_eq] at h
    obtain ⟨hc, hs⟩ := h
    have hchar : ∀ d ∈ c :: s, isLowercase d = true ∨ isDigit d = true ∨ d = '-' := by
      intro d hd
      obtain rfl | hd := List.mem_cons.mp hd
      · exact .inl hc
      · exact or_assoc.mp (hs d hd)
    refine ⟨isWord_iff.mpr ⟨⟨c, s, rfl, (isLowercase_cases hc).1⟩, fun d hd => ?_⟩, ?_⟩
    · obtain hl | hn | rfl := hchar d hd
      · exact ⟨isNameChar_of_isNameStart (isLowercase_cases hl).1, (isLowercase_cases hl).2.1⟩
      · refine ⟨isNameChar_of_isDigit hn, ?_⟩
        rintro rfl
        exact absurd hn (by decide)
      · decide
    · refine (List.map_congr_left fun d hd => ?_).trans (List.map_id _)
      obtain hl | hn | rfl := hchar d hd
      · exact (isLowercase_cases hl).2.2
      · exact toLower_of_isDigit hn
      · rfl

theorem lex_priority (important : Bool) (s : List Char) :
    lex ((if important then " !important" else "").toList ++ ';' :: s) =
      priorityLexemes important ++ ⟨.semicolon, [';']⟩ :: lex s := by
  cases important with
  | false => exact lex_semicolon s
  | true =>
    have hw : lex ("important".toList ++ ';' :: s) =
        ⟨.ident "important".toList, "important".toList⟩ :: lex (';' :: s) :=
      lex_word_append (by decide) rfl
    calc lex (' ' :: '!' :: ("important".toList ++ ';' :: s))
        = ⟨.whitespace, [' ']⟩ :: lex ('!' :: ("important".toList ++ ';' :: s)) :=
          lex_space (by decide) rfl
      _ = _ := by rw [lex_bang, hw, lex_semicolon]; rfl

theorem lex_print_front (hnamed : isNamed d.property.toList = true) (hfilled : d.value.toList ≠ [])
    (htrimmed : trim d.value.toList = d.value.toList) (s : List Char) :
    lex (d.print.toList ++ s) = ⟨.ident d.property.toList, d.property.toList⟩ :: ⟨.colon, [':']⟩ ::
      ⟨.whitespace, [' ']⟩ :: lex (d.value.toList ++
        ((if d.important then " !important" else "").toList ++ ';' :: s)) := by
  have hname (t) : lex (d.property.toList ++ ':' :: t) =
      ⟨.ident d.property.toList, d.property.toList⟩ :: ⟨.colon, [':']⟩ :: lex t := by
    rw [lex_word_append (isNamed_cases hnamed).1 rfl, lex_colon]
  simp only [toList_print, List.append_assoc, List.cons_append, List.nil_append]
  rw [hname, lex_space (by decide) (takeWhile_isSpace_of_trim hfilled htrimmed _)]

theorem exists_cons_priority (important : Bool) (s : List Char) :
    ∃ c t, (if important then " !important" else "").toList ++ ';' :: s = c :: t ∧
      (c = ' ' ∨ c = ';') := by
  cases important with
  | true => exact ⟨_, _, rfl, .inl rfl⟩
  | false => exact ⟨_, _, rfl, .inr rfl⟩

theorem lex_print (h : Printable d) (s : List Char) :
    lex (d.print.toList ++ s) = printedLexemes d ++ ⟨.semicolon, [';']⟩ :: lex s := by
  obtain ⟨b, u, hu, hb⟩ := exists_cons_priority d.important s
  have hvalue : lex (d.value.toList ++ ((if d.important then " !important" else "").toList ++
      ';' :: s)) = lex d.value.toList ++ (priorityLexemes d.important ++
        ⟨.semicolon, [';']⟩ :: lex s) := by
    rw [← lex_priority, hu, h.contained.lex_append_mark h.trimmed hb]
  rw [lex_print_front h.named h.filled h.trimmed, hvalue]
  simp [printedLexemes]

theorem isFree_printedLexemes (h : Printable d) :
    isFree isSemicolon [] (printedLexemes d) = true ∧ nestAll [] (printedLexemes d) = [] := by
  have hv := h.contained.isFree_semicolon
  have hn := h.contained.closed
  constructor
  · simp only [printedLexemes, isFree_cons, isFree_append, nest, opens, hv, hn, true_and]
    cases d.important <;> simp [priorityLexemes, isFree, isSemicolon, nest, opens]
  · simp only [printedLexemes, nestAll_cons, nestAll_append, nest, opens, hn]
    cases d.important <;> rfl

theorem text_printedLexemes (d : Declaration) :
    text (printedLexemes d) ++ [';'] = d.print.toList := by
  obtain ⟨p, v, important⟩ := d
  rw [toList_print]
  cases important <;> simp [printedLexemes, priorityLexemes, text_append, text_lex]

theorem hasBody_printed (h : Printable d) :
    HasBody (⟨.whitespace, [' ']⟩ :: (lex d.value.toList ++ priorityLexemes d.important))
      d.value.toList d.important := by
  obtain ⟨p, v, important⟩ := d
  have hblank : ∀ c ∈ [' '], isBlank c = true := List.forall_mem_singleton.mpr (by decide)
  have hspace : isFree isBang [] (⟨.whitespace, [' ']⟩ :: lex v.toList) = true :=
    isFree_cons.mpr ⟨fun _ => rfl, h.contained.isFree_bang⟩
  have hstack : nestAll [] (⟨.whitespace, [' ']⟩ :: lex v.toList) = [] := h.contained.closed
  refine ⟨?_, h.filled, ?_⟩ <;> rw [← List.cons_append]
  · rw [before_append hspace, hstack]
    cases important with
    | false => simpa [priorityLexemes, before, text_lex, h.trimmed] using
        trim_pad (b := []) hblank (by simp) v.toList
    | true => simpa [priorityLexemes, before, text_append, text_lex, h.trimmed, isBang, nest, opens]
        using trim_pad hblank hblank v.toList
  · rw [onward_append hspace, hstack]
    cases important with
    | false => exact .normal
    | true => exact .important rfl (sameWord_iff.mpr rfl) rfl

theorem holds_printed (h : Printable d) : Holds ⟨printedLexemes d, true⟩ (some d) := by
  have hlower : lowercase d.property = d.property := by
    rw [lowercase, (isNamed_cases h.named).2, String.ofList_toList]
  have hdeclares : Declares d.property.toList (⟨.colon, [':']⟩ :: ⟨.whitespace, [' ']⟩ ::
      (lex d.value.toList ++ priorityLexemes d.important)) _ := .of rfl (hasBody_printed h)
  have hof : (Declaration.of (String.ofList d.property.toList)
      (String.ofList d.value.toList)).withPriority d.important = d := by
    simp only [Declaration.of, withPriority, String.ofList_toList, hlower]
  rw [hof] at hdeclares
  exact .declaration rfl hdeclares

theorem source_printed (d : Declaration) :
    Item.source ⟨printedLexemes d, true⟩ = d.print.toList :=
  text_printedLexemes d

/-- A printed declaration is read, and the text behind it is read from the line below on. -/
theorem collect_print (h : Printable d) (k : Nat) (s : List Char) :
    collect (Location.start.down k) (items [] (lex (d.print.toList ++ '\n' :: s))) =
      (collect (Location.start.down (k + (lineBreaks d.print.toList + 1)))
        (items [] (lex s))).map (d :: ·) := by
  obtain ⟨hfree, hstack⟩ := isFree_printedLexemes h
  have hline : ((Location.start.down k).advance d.print.toList).nextLine =
      Location.start.down (k + (lineBreaks d.print.toList + 1)) := by
    rw [Location.nextLine_eq_down, Location.advance_line]
    simp only [Location.start, Location.down, Location.mk.injEq, and_true]
    omega
  rw [lex_print h, items_append_semicolon hfree hstack rfl, collect,
    item_eq_ok.mpr (holds_printed h), source_printed, collect_newline, hline]
  cases collect (Location.start.down (k + (lineBreaks d.print.toList + 1))) (items [] (lex s)) <;>
    rfl

theorem toList_printAll_cons (d : Declaration) (ds : List Declaration) :
    (printAll (d :: ds)).toList = d.print.toList ++ '\n' :: (printAll ds).toList := by
  simp [printAll, String.toList_append]

theorem getLast?_print (d : Declaration) : d.print.toList.getLast? = some ';' := by
  rw [← text_printedLexemes, List.getLast?_append]
  rfl

theorem lineBreaks_print_append (d : Declaration) (s : List Char) :
    lineBreaks (d.print.toList ++ '\n' :: s) = lineBreaks d.print.toList + 1 + lineBreaks s := by
  have hnewline : lineBreaks ('\n' :: s) = lineBreaks s + 1 := by simp [lineBreaks, isNewline]
  rw [lineBreaks_append (by simp [getLast?_print]), hnewline]
  omega

theorem collect_printAll {ds : List Declaration} (h : ∀ d ∈ ds, Printable d) (k : Nat)
    (s : List Char) :
    collect (Location.start.down k) (items [] (lex ((printAll ds).toList ++ s))) =
      (collect (Location.start.down (k + lineBreaks (printAll ds).toList))
        (items [] (lex s))).map (ds ++ ·) := by
  induction ds generalizing k with
  | nil =>
    have hnil : (printAll []).toList = [] := rfl
    rw [hnil, List.nil_append, lineBreaks, Nat.add_zero]
    cases collect (Location.start.down k) (items [] (lex s)) <;> rfl
  | cons d ds ih =>
    rw [toList_printAll_cons, List.append_assoc, List.cons_append,
      collect_print (h d List.mem_cons_self), ih fun e he => h e (List.mem_cons_of_mem _ he),
      lineBreaks_print_append, Nat.add_assoc]
    cases collect (Location.start.down
      (k + (lineBreaks d.print.toList + 1 + lineBreaks (printAll ds).toList)))
      (items [] (lex s)) <;> rfl

/-- Printed declarations are read back in front of any text, and the errors of that text are found
as many lines further down as the printed ones take. -/
theorem read_printAll_append {ds : List Declaration} (h : ∀ d ∈ ds, Printable d) (q : String) :
    read (printAll ds ++ q) =
      ((read q).mapError (ConversionError.down (lineBreaks (printAll ds).toList))).map (ds ++ ·) := by
  have hread := collect_printAll h 0 q.toList
  rw [Location.down_zero, Nat.zero_add, collect_down] at hread
  rw [read, read, String.toList_append, hread]

theorem read_printAll {ds : List Declaration} (h : ∀ d ∈ ds, Printable d) :
    read (printAll ds) = .ok ds := by
  have hread := read_printAll_append h ""
  rw [String.append_empty] at hread
  rw [hread]
  change Except.ok (ds ++ []) = _
  rw [List.append_nil]

/-- Reading is compositional over printed lists: what a text holds is read behind them, and what is
wrong with it is reported at the same place of it. -/
theorem read_behind_printed {ds : List Declaration} (h : ∀ d ∈ ds, Printable d) (q : String) :
    (∀ es, read q = .ok es → read (printAll ds ++ q) = .ok (ds ++ es)) ∧
      ∀ flaw source line column, read q = .error (.malformed flaw source ⟨line, column⟩) →
        read (printAll ds ++ q) = .error (.malformed flaw source
          ⟨line + lineBreaks (printAll ds).toList, column⟩) := by
  rw [read_printAll_append h]
  constructor
  · intro es hq
    rw [hq]
    rfl
  · intro flaw source line column hq
    rw [hq]
    rfl

theorem read_behind_printed_margin :
    (∀ d ∈ [⟨"margin", "0 \"a;b\"\n1px", true⟩], Printable d) ∧
      read "margin: 0 \"a;b\"\n1px !important;\ncolor: red" =
        .ok [⟨"margin", "0 \"a;b\"\n1px", true⟩, ⟨"color", "red", false⟩] ∧
      read "margin: 0 \"a;b\"\n1px !important;\ncolor red" =
        .error (.malformed (.unexpected (.ident "red".toList)) "color red" ⟨3, 6⟩) := by
  have h : ∀ d ∈ [⟨"margin", "0 \"a;b\"\n1px", true⟩], Printable d := by decide
  exact ⟨h, (read_behind_printed h "color: red").1 [⟨"color", "red", false⟩] (by decide),
    (read_behind_printed h "color red").2 (.unexpected (.ident "red".toList)) "color red" 1 6
      (by decide)⟩

end StyleFold.Reader.Strict
