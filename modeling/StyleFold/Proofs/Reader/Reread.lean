import StyleFold.Proofs.Lexeme.Clean
import StyleFold.Proofs.Reader.Printed

/-! Printed declarations are read back only where their values keep to themselves. -/
namespace StyleFold.Reader.Strict
open Text Lexeme Token Declaration

variable {c : Char} {s t u v : List Char} {ls ms : List Lexeme} {l : Location} {d : Declaration}
  {ds : List Declaration}

theorem exists_blanks (hv : v ≠ []) (htrim : trim v = v) (hu : u <+: v ++ t) (h : trim u = v) :
    ∃ x, u = v ++ x ∧ x <+: t ∧ ∀ c ∈ x, isBlank c = true := by
  obtain ⟨a, x, hsplit, ha, hx⟩ := exists_trim_pad u
  rw [h] at hsplit
  cases a with
  | nil =>
    rw [List.nil_append] at hsplit
    rw [hsplit] at hu
    exact ⟨x, hsplit, (List.prefix_append_right_inj v).mp hu, hx⟩
  | cons c a =>
    obtain ⟨e, w, rfl⟩ := List.exists_cons_of_ne_nil hv
    rw [hsplit] at hu
    obtain rfl : c = e := (List.cons_prefix_cons.mp hu).1
    have hblank := ha c List.mem_cons_self
    rw [(trim_eq_self_iff.mp htrim).1 c rfl] at hblank
    contradiction

/-- Lexemes that make up a trimmed value and close their brackets are those of the value alone. -/
theorem contained_of_lex (hs : '\\' ∉ v ++ c :: t) (htrim : trim v = v) (hc : c = ' ' ∨ c = ';')
    (h : lex (v ++ c :: t) = ls ++ ms) (htext : text ls = v) (hn : nestAll [] ls = [])
    (hf : isFree isMark [] ls = true) : Contained v := by
  have hv : '\\' ∉ v := fun hm => hs (List.mem_append_left _ hm)
  have hms : text ms = c :: t := by
    have hall := text_lex (v ++ c :: t)
    rw [h, text_append, htext] at hall
    exact List.append_cancel_left hall
  have hapart : Apart v (c :: t) := apart_of_trim htrim (by obtain rfl | rfl := hc <;> rfl)
  have hlast : ∀ l ∈ ls.getLast?, l.leansOn = false := by
    intro l hl
    obtain ⟨init, rfl⟩ := List.getLast?_eq_some_iff.mp hl
    rw [leansOn, opens_of_nestAll_nil hn l hl]
    cases ht : l.token
    case badQuoted =>
      rw [List.append_assoc, List.singleton_append] at h
      obtain ⟨e, r, he, hnewline⟩ := newline_of_badQuoted hs h ht
      rw [hms] at he
      obtain ⟨rfl, -⟩ := List.cons.inj he
      obtain rfl | rfl := hc <;> contradiction
    all_goals rfl
  obtain ⟨hlex, hended⟩ := lex_of_append hv (List.cons_ne_nil c t) hapart h htext hlast
  exact ⟨hv, by rwa [hlex], by rwa [hlex], by rwa [hlex]⟩

theorem exists_init_of_space (hs : '\\' ∉ v ++ ' ' :: t) (htrim : trim v = v)
    (h : lex (v ++ ' ' :: t) = ls ++ ms) (hms : ms ≠ []) (htext : text ls = v ++ [' '])
    (hnewline : ∀ c ∈ (text ms).head?, isNewline c = false) :
    ∃ init, ls = init ++ [⟨.whitespace, [' ']⟩] ∧ text init = v := by
  obtain rfl | ⟨init, l, rfl⟩ := List.eq_nil_or_concat' ls
  · simp at htext
  have hl : l ∈ lex (v ++ ' ' :: t) := by simp [h]
  have hended := isEnded_of_append hs h hms l (by simp)
  have hspelled := spelled_of_mem hs hl
  rw [text_append, text_cons, text_nil, List.append_nil] at htext
  have hlast : l.source.getLast? = some ' ' := by
    rw [← List.getLast?_append_of_ne_nil (text init) (source_ne_nil hl), htext]
    simp
  have hwhitespace : l.token = .whitespace := by
    by_contra hne
    have hbad (w : List Char) : l.token ≠ .badQuoted w := by
      intro ht
      rw [List.append_assoc, List.singleton_append] at h
      obtain ⟨e, r, he, hnew⟩ := newline_of_badQuoted hs h ht
      rw [hnewline e (by rw [he]; rfl)] at hnew
      contradiction
    have := not_isSpace_of_getLast? hspelled hended hne hbad hlast
    contradiction
  rw [hwhitespace] at hspelled
  obtain ⟨w, hw⟩ := List.getLast?_eq_some_iff.mp hlast
  rw [hw, ← List.append_assoc] at htext
  have hv := (List.append_inj' htext rfl).1
  -- A space at the end of `v` itself would have been trimmed away.
  obtain rfl | ⟨w, e, rfl⟩ := List.eq_nil_or_concat' w
  · refine ⟨init, ?_, by simpa using hv⟩
    obtain ⟨token, source⟩ := l
    simp_all
  · have hsp : isSpace e = true := hspelled e (by simp [hw])
    rw [not_isSpace_of_not_isBlank ((trim_eq_self_iff.mp htrim).2 e (by simp [← hv]))] at hsp
    contradiction

theorem hasBody_of_holds {i : Item} {o : Option Declaration} {name word source : List Char}
    (h : Holds i o) (hi : i.lexemes = ⟨.ident name, word⟩ :: ⟨.colon, source⟩ :: ls) :
    ∃ d important, o = some d ∧ HasBody ls d.value.toList important := by
  cases h with
  | nothing h => simp [hi, isPadding, Lexeme.isTrivia, Token.isTrivia] at h
  | declaration h hd =>
    rw [hi, List.dropWhile_cons_of_neg (by simp [isPadding, Lexeme.isTrivia, Token.isTrivia])] at h
    obtain ⟨-, rfl⟩ := List.cons.inj h
    obtain ⟨hcolon, hbody⟩ := hd
    rw [afterTrivia, List.dropWhile_cons_of_neg (by simp [Lexeme.isTrivia, Token.isTrivia])]
      at hcolon
    obtain ⟨-, rfl⟩ := List.cons.inj hcolon
    exact ⟨_, _, rfl, by simpa [Declaration.of, withPriority] using hbody⟩

theorem exists_value_lexemes {i : Item} {back : List Lexeme} {important : Bool}
    (hbody : HasBody (⟨.whitespace, [' ']⟩ :: i.lexemes) v important)
    (hfree : isFree isSemicolon [] i.lexemes = true)
    (hstack : back = [] ∨ nestAll [] i.lexemes = []) :
    ∃ ls ms, i.lexemes ++ back = ls ++ ms ∧ trim (text ls) = v ∧ isFree isMark [] ls = true ∧
      (ms = [] ∨ nestAll [] ls = []) := by
  obtain ⟨front, rest, hsplit, htrim, hmark, hrest⟩ :=
    hbody.exists_lexemes (isFree_cons.mpr ⟨fun _ => rfl, hfree⟩)
  cases front with
  | nil => exact absurd htrim.symm hbody.filled
  | cons l front =>
    obtain ⟨rfl, hlexemes : i.lexemes = front ++ rest⟩ := List.cons.inj hsplit
    have hpad := trim_pad (List.forall_mem_singleton.mpr (by decide : isBlank ' ' = true))
      (fun c hc => absurd hc List.not_mem_nil) (text front)
    rw [List.append_nil] at hpad
    refine ⟨front, rest ++ back, by rw [hlexemes, List.append_assoc], hpad.symm.trans htrim,
      (isFree_cons.mp hmark).2, ?_⟩
    obtain rfl | ⟨hn, -⟩ := hrest
    · rw [List.append_nil] at hlexemes
      rwa [List.nil_append, ← hlexemes]
    · exact .inr hn

theorem blanks_of_priority {important : Bool} {x : List Char}
    (h : x <+: (if important then " !important" else "").toList ++ ';' :: s)
    (hx : ∀ c ∈ x, isBlank c = true) : x = [] ∨ important = true ∧ x = [' '] := by
  cases x with
  | nil => exact .inl rfl
  | cons c x =>
    cases important with
    | false =>
      obtain rfl : c = ';' := (List.cons_prefix_cons.mp h).1
      exact absurd (hx _ List.mem_cons_self) (by decide)
    | true =>
      obtain ⟨rfl, hx'⟩ : c = ' ' ∧ x <+: '!' :: ("important".toList ++ ';' :: s) :=
        List.cons_prefix_cons.mp h
      cases x with
      | nil => exact .inr ⟨rfl, rfl⟩
      | cons d x =>
        obtain rfl : d = '!' := (List.cons_prefix_cons.mp hx').1
        exact absurd (hx '!' (by simp)) (by decide)

theorem exists_lexemes_of_collect {name : List Char} (h : collect l (items []
      (⟨.ident name, name⟩ :: ⟨.colon, [':']⟩ :: ⟨.whitespace, [' ']⟩ :: lex t)) = .ok (d :: ds)) :
    ∃ ls ms, lex t = ls ++ ms ∧ trim (text ls) = d.value.toList ∧ isFree isMark [] ls = true ∧
      (ms = [] ∨ nestAll [] ls = []) := by
  obtain ⟨i, is, back, hitems, hlex, hfree, hstack⟩ := exists_item (lex t)
  have hmarkless : isFree isSemicolon [] [⟨.ident name, name⟩, ⟨.colon, [':']⟩,
    ⟨.whitespace, [' ']⟩] = true := rfl
  have hfront := items_append hmarkless (lex t)
  change items [] (_ :: _ :: _ :: lex t) = (items [] (lex t)).modifyHead _ at hfront
  rw [hfront, hitems, List.modifyHead_cons] at h
  obtain ⟨o, rest, hholds, -, hds⟩ := collect_cons_eq_ok.mp h
  obtain ⟨d', important, rfl, hbody⟩ := hasBody_of_holds hholds rfl
  obtain ⟨rfl, -⟩ := List.cons.inj hds
  rw [hlex]
  exact exists_value_lexemes hbody hfree hstack

theorem contained_of_lexemes {important : Bool} (hv : Trimmed v)
    (hs : '\\' ∉ v ++ ((if important then " !important" else "").toList ++ ';' :: s))
    (hlex : lex (v ++ ((if important then " !important" else "").toList ++ ';' :: s)) = ls ++ ms)
    (htext : trim (text ls) = v) (hmark : isFree isMark [] ls = true)
    (hclosed : ms = [] ∨ nestAll [] ls = []) : Contained v := by
  obtain ⟨c, t, htail, hc⟩ := exists_cons_priority important s
  have hall : v ++ ((if important then " !important" else "").toList ++ ';' :: s) =
      text ls ++ text ms := by
    rw [← text_append, ← hlex, text_lex]
  obtain ⟨x, hx, hfront, hblank⟩ := exists_blanks hv.filled hv.trimmed ⟨text ms, hall.symm⟩ htext
  have hms : text ms ≠ [] := by
    intro he
    rw [he, List.append_nil, hx] at hall
    have hsemi : ';' ∈ x := by
      rw [← List.append_cancel_left hall]
      simp
    exact absurd (hblank _ hsemi) (by decide)
  have hn : nestAll [] ls = [] := hclosed.resolve_left fun he => hms (by rw [he]; rfl)
  obtain rfl | ⟨rfl, rfl⟩ := blanks_of_priority hfront hblank
  · rw [htail] at hs hlex
    exact contained_of_lex hs hv.trimmed hc hlex (by rw [hx, List.append_nil]) hn hmark
  · rw [hx, List.append_assoc] at hall
    have hrest : '!' :: ("important".toList ++ ';' :: s) = text ms :=
      (List.cons.inj (List.append_cancel_left hall)).2
    obtain ⟨init, rfl, hinit⟩ := exists_init_of_space hs hv.trimmed hlex
      (fun he => hms (by rw [he]; rfl)) hx (by rw [← hrest]; rintro c ⟨⟩; decide)
    rw [List.append_assoc] at hlex
    exact contained_of_lex hs hv.trimmed (.inl rfl) hlex hinit (by simpa using hn)
      (isFree_append.mp hmark).1

theorem contained_of_collect (hnamed : isNamed d.property.toList = true)
    (hv : Trimmed d.value.toList) (hs : '\\' ∉ d.print.toList ++ s)
    (h : collect l (items [] (lex (d.print.toList ++ s))) = .ok (d :: ds)) :
    Contained d.value.toList := by
  rw [lex_print_front hnamed hv.filled hv.trimmed] at h
  obtain ⟨ls, ms, hlex, htext, hmark, hclosed⟩ := exists_lexemes_of_collect h
  rw [toList_print] at hs
  refine contained_of_lexemes hv (fun hm => hs ?_) hlex htext hmark hclosed
  simp at hm ⊢
  tauto

theorem not_mem_print (hnamed : isNamed d.property.toList = true) (hv : '\\' ∉ d.value.toList) :
    '\\' ∉ d.print.toList := by
  have hp := not_mem_of_isIdentifier (c := '\\')
    (isIdentifier_of_isWord (isNamed_cases hnamed).1).1 (by decide)
  rw [toList_print]
  cases d.important <;> simp [hp, hv]

theorem not_mem_printAll (hnamed : ∀ d ∈ ds, isNamed d.property.toList = true)
    (hv : ∀ d ∈ ds, '\\' ∉ d.value.toList) : '\\' ∉ (printAll ds).toList := by
  induction ds with
  | nil => simp [printAll]
  | cons d ds ih =>
    have hd := not_mem_print (hnamed d List.mem_cons_self) (hv d List.mem_cons_self)
    have hds := ih (fun e he => hnamed e (List.mem_cons_of_mem _ he))
      fun e he => hv e (List.mem_cons_of_mem _ he)
    rw [toList_printAll_cons]
    simp [hd, hds]

theorem exists_of_map_eq_ok {α β : Type} {f : α → β} {x : Result α} {b : β}
    (h : x.map f = .ok b) : ∃ a, x = .ok a ∧ f a = b := by
  cases x with
  | error e => cases h
  | ok a => exact ⟨a, rfl, Except.ok.inj h⟩

/-- Declarations with trimmed values are read back from their print just if all the values keep to
themselves. -/
theorem read_printAll_iff (hnamed : ∀ d ∈ ds, isNamed d.property.toList = true)
    (hv : ∀ d ∈ ds, Trimmed d.value.toList) :
    read (printAll ds) = .ok ds ↔ ∀ d ∈ ds, Contained d.value.toList := by
  refine ⟨fun h => ?_, fun h => read_printAll fun d hd =>
    ⟨hnamed d hd, (hv d hd).filled, (hv d hd).trimmed, h d hd⟩⟩
  have hcollect (k : Nat)
      (h : collect (Location.start.down k) (items [] (lex (printAll ds).toList)) = .ok ds) :
      ∀ d ∈ ds, Contained d.value.toList := by
    clear * - h hnamed hv
    induction ds generalizing k with
    | nil => simp
    | cons d ds ih =>
      have hs := not_mem_printAll hnamed fun e he => (hv e he).plain
      rw [toList_printAll_cons] at h hs
      obtain ⟨hname, hnamed⟩ := List.forall_mem_cons.mp hnamed
      obtain ⟨hvalue, hv⟩ := List.forall_mem_cons.mp hv
      have hcontained := contained_of_collect hname hvalue hs h
      have hprintable : Printable d := ⟨hname, hvalue.filled, hvalue.trimmed, hcontained⟩
      rw [collect_print hprintable] at h
      obtain ⟨es, hes, heq⟩ := exists_of_map_eq_ok h
      obtain ⟨-, rfl⟩ := List.cons.inj heq
      exact List.forall_mem_cons.mpr ⟨hcontained, ih hnamed hv _ hes⟩
  exact hcollect 0 h

end StyleFold.Reader.Strict
