import StyleFold.Proofs.Reader.Printed
import StyleFold.Proofs.Reader.Segments

/-!
What the lenient reader makes of its own declarations once they are printed. The mark of priority
is looked for at the end of a value before the value is trimmed, and only gaps are passed over. With
some other blank behind it the mark stays in the value. Read again it counts, and nothing else
changes.
-/
namespace StyleFold.Reader.Lenient
open Text Pattern Declaration

variable {n : Nat} {first : Bool} {d : Declaration} {ds : List Declaration} {s v : List Char}

/-- A declaration with a name that the reader knows, in lower case, and with a trimmed value that no
semicolon ends. -/
structure Recognized (d : Declaration) : Prop where
  named : d.property.toList ≠ []
  letters : ∀ c ∈ d.property.toList, isNameLetter c = true
  lowered : lowercase d.property = d.property
  trimmed : trim d.value.toList = d.value.toList
  unended : ';' ∉ d.value.toList

/-- What is read where a declaration is printed. Nothing behind the value of a normal declaration
keeps the reader from a mark of priority in the value itself. -/
def reread (d : Declaration) : Declaration :=
  if d.important then d else declared d.property.toList d.value.toList

theorem toList_declared_value (name value : List Char) :
    (declared name value).value.toList = trim (splitPriority value).1 :=
  String.toList_ofList

theorem withPriority_eq_self {b : Bool} (h : d.important = b) : d.withPriority b = d := by
  subst h
  rfl

theorem isGap_of_mem_space : ∀ c ∈ [' '], isGap c = true :=
  List.forall_mem_singleton.mpr (by decide)

theorem isMark_printed {gap : List Char} (hgap : ∀ c ∈ gap, isGap c = true) :
    IsMark (gap ++ "!important".toList) :=
  ⟨gap, [], "important".toList, rfl, hgap, by simp, by decide⟩

theorem last_printed (s : List Char) :
    ∀ c ∈ (s ++ "!important".toList).getLast?, isGap c = false := by
  rw [List.getLast?_append_of_ne_nil _ (by decide)]
  rintro c ⟨⟩
  decide

theorem head_of_trimmed (hv : trim v = v) : ∀ c ∈ v.head?, isGap c = false := fun c hc =>
  not_isGap_of_not_isBlank ((trim_eq_self_iff.mp hv).1 c hc)

theorem last_of_trimmed (hv : trim v = v) : ∀ c ∈ v.getLast?, isGap c = false := fun c hc =>
  not_isGap_of_not_isBlank ((trim_eq_self_iff.mp hv).2 c hc)

namespace Recognized

theorem declared_eq (h : Recognized d) {b : Bool} (hsplit : splitPriority v = (d.value.toList, b)) :
    declared d.property.toList v = d.withPriority b := by
  simp only [declared, hsplit, Declaration.of, withPriority, h.trimmed, String.ofList_toList,
    h.lowered]

theorem declarationsFrom_value (h : Recognized d) {gap : List Char}
    (hgap : ∀ c ∈ gap, isGap c = true)
    (hhead : ∀ c ∈ (v ++ ';' :: s).head?, isGap c = false)
    (hlast : ∀ c ∈ v.getLast?, isGap c = false) (hsemi : ';' ∉ v) :
    declarationsFrom n first (d.property.toList ++ ':' :: (gap ++ (v ++ ';' :: s))) =
      declared d.property.toList v :: declarationsFrom n false s := by
  have hnone : ∀ c ∈ ([] : List Char), isGap c = true := by simp
  have htail : ';' :: s = [] ++ ([';'] ++ s) := rfl
  exact declarationsFrom_match htail h.named h.letters hnone hgap hhead hlast hsemi hnone .semicolon

theorem declarationsFrom_print (h : Recognized d) (s : List Char) :
    declarationsFrom n first (d.print.toList ++ s) = reread d :: declarationsFrom n false s := by
  have hhead := head_of_trimmed h.trimmed
  have hlast := last_of_trimmed h.trimmed
  rw [Strict.toList_print, reread]
  cases himportant : d.important with
  | false =>
    have hend : ∀ c ∈ (d.value.toList ++ ';' :: s).head?, isGap c = false := by
      rcases hv : d.value.toList with _ | ⟨c, v⟩
      · rintro c ⟨⟩
        decide
      · rwa [hv] at hhead
    simpa using h.declarationsFrom_value isGap_of_mem_space hend hlast h.unended
  | true =>
    have hself := withPriority_eq_self himportant
    rcases hv : d.value.toList with _ | ⟨c, v⟩
    · -- Nothing stands between the colon and the mark but the gaps before both of them.
      have hgap : ∀ c ∈ [' ', ' '], isGap c = true :=
        List.forall_mem_cons.mpr ⟨by decide, isGap_of_mem_space⟩
      have hmark : IsMark ([] ++ "!important".toList) := isMark_printed (List.forall_mem_nil _)
      have hsplit : splitPriority ([] ++ "!important".toList) = (d.value.toList, true) := by
        rw [hv]
        exact splitPriority_important (by simp) hmark
      have hfound : declarationsFrom n first (d.property.toList ++ ':' ::
          ([' ', ' '] ++ (([] ++ "!important".toList) ++ ';' :: s))) = _ :=
        h.declarationsFrom_value hgap (by rintro c ⟨⟩; decide) (last_printed []) (by decide)
      rw [h.declared_eq hsplit, hself] at hfound
      simpa using hfound
    · have hsplit : splitPriority (d.value.toList ++ ([' '] ++ "!important".toList)) =
          (d.value.toList, true) :=
        splitPriority_important hlast (isMark_printed isGap_of_mem_space)
      have hfound : declarationsFrom n first (d.property.toList ++ ':' :: ([' '] ++
          ((d.value.toList ++ ([' '] ++ "!important".toList)) ++ ';' :: s))) = _ :=
        h.declarationsFrom_value isGap_of_mem_space (by rw [hv] at hhead ⊢; exact hhead)
          (by rw [← List.append_assoc]; exact last_printed _) (by simpa using h.unended)
      rw [h.declared_eq hsplit, hself, hv] at hfound
      simpa using hfound

end Recognized

theorem declarationsFrom_printAll (h : ∀ d ∈ ds, Recognized d) :
    declarationsFrom n first (printAll ds).toList = ds.map reread := by
  induction ds generalizing first with
  | nil => rfl
  | cons d ds ih =>
    have hskip : declarationsFrom n false (['\n'] ++ (printAll ds).toList) = _ :=
      declarationsFrom_skip (List.forall_mem_singleton.mpr (by decide))
    rw [List.singleton_append] at hskip
    rw [Strict.toList_printAll_cons, (h d List.mem_cons_self).declarationsFrom_print, hskip,
      ih fun e he => h e (List.mem_cons_of_mem _ he), List.map_cons]

theorem isNameLetter_toLower {c : Char} (h : isNameLetter c = true) :
    isNameLetter c.toLower = true := by
  obtain hc | rfl : isLetter c = true ∨ c = '-' := by simpa [isNameLetter] using h
  · exact forall_alphanumeric (q := fun c => isLetter c = true → isNameLetter c.toLower = true)
      (by decide +kernel) (by rw [hc, Bool.true_or]) hc
  · decide

theorem Stands.recognized {name value : List Char} (h : Stands s name value) :
    Recognized (declared name value) where
  named := by simpa [declared, Declaration.of, withPriority, lowercase, lower] using h.named
  letters := by
    intro c hc
    obtain ⟨d, hd, rfl⟩ : ∃ d ∈ name, d.toLower = c := by
      simpa [declared, Declaration.of, withPriority, lowercase, lower] using hc
    exact isNameLetter_toLower (h.letters d hd)
  lowered := lowercase_lowercase _
  trimmed := by rw [toList_declared_value, trim_trim]
  unended := by
    rw [toList_declared_value]
    exact fun hc => h.unended ((beforeMatch_isPrefix _ _ _).subset (mem_of_mem_trim hc))

theorem Recognized.stands (h : Recognized d) :
    Stands d.value.toList d.property.toList d.value.toList :=
  ⟨h.named, h.letters, last_of_trimmed h.trimmed, h.unended, fun _ hc => hc⟩

theorem Recognized.reread (h : Recognized d) : Recognized (reread d) := by
  rw [Lenient.reread]
  split
  · exact h
  · exact h.stands.recognized

theorem reread_of_endsMarked (h : EndsMarked d.value.toList) : (reread d).important = true := by
  rw [reread]
  split
  · assumption
  · exact splitPriority_snd_iff.mpr h

theorem reread_eq_self_iff (h : Recognized d) :
    reread d = d ↔ (d.important = false → ¬EndsMarked d.value.toList) := by
  constructor
  · intro heq hnormal hmarked
    have himportant := reread_of_endsMarked hmarked
    rw [heq, hnormal] at himportant
    contradiction
  · intro hnormal
    rw [reread]
    cases himportant : d.important with
    | true => rfl
    | false =>
      have hsplit := splitPriority_normal (hnormal himportant)
      exact (h.declared_eq hsplit).trans (withPriority_eq_self himportant)

theorem reread_reread (h : Recognized d) : reread (reread d) = reread d := by
  refine (reread_eq_self_iff h.reread).mpr fun hnormal hmarked => ?_
  by_cases hd : EndsMarked d.value.toList
  · rw [reread_of_endsMarked hd] at hnormal
    contradiction
  · have heq : reread d = d := (reread_eq_self_iff h).mpr fun _ => hd
    rw [heq] at hmarked
    exact hd hmarked

/-- Without blanks other than gaps no mark comes to the end of a value by trimming. -/
theorem Stands.not_endsMarked {name value : List Char} (h : Stands s name value)
    (hs : ∀ c ∈ s, isBlank c = true → isGap c = true)
    (hnormal : (declared name value).important = false) :
    ¬EndsMarked (declared name value).value.toList := by
  have hvalue : ¬EndsMarked value := fun hmarked => by
    have himportant : (declared name value).important = true := splitPriority_snd_iff.mpr hmarked
    rw [himportant] at hnormal
    contradiction
  have hlast : ∀ c ∈ value.getLast?, isBlank c = false := fun c hc => by
    rw [← Bool.not_eq_true]
    intro hblank
    have hgap := hs c (h.inside (List.mem_of_getLast? hc)) hblank
    rw [h.last c hc] at hgap
    contradiction
  rw [toList_declared_value, splitPriority_normal hvalue]
  exact fun hmarked => hvalue (hmarked.of_suffix (trim_suffix hlast))

theorem recognized_of_read {t : String} : ∀ d ∈ read t, Recognized d := by
  intro d hd
  obtain ⟨name, value, hstands, rfl⟩ := exists_stands hd
  exact hstands.recognized

theorem read_printAll_recognized (h : ∀ d ∈ ds, Recognized d) :
    read (printAll ds) = ds.map reread :=
  declarationsFrom_printAll h

theorem read_printAll_eq_self_iff (h : ∀ d ∈ ds, Recognized d) : read (printAll ds) = ds ↔
    ∀ d ∈ ds, d.important = false → ¬EndsMarked d.value.toList := by
  calc read (printAll ds) = ds
    _ ↔ ds.map reread = ds.map id := by rw [read_printAll_recognized h, List.map_id]
    _ ↔ ∀ d ∈ ds, reread d = d := List.map_inj_left
    _ ↔ _ := forall₂_congr fun d hd => reread_eq_self_iff (h d hd)

/-- What the lenient reader has read it reads back from its printed form just where no normal value
ends with a mark of priority, and so wherever all blanks of the text are gaps. Read back once more
nothing changes. -/
theorem read_print_read (t : String) :
    (read (printAll (read t)) = read t ↔
        ∀ d ∈ read t, d.important = false → ¬EndsMarked d.value.toList) ∧
      ((∀ c ∈ t.toList, isBlank c = true → isGap c = true) → read (printAll (read t)) = read t) ∧
      read (printAll (read (printAll (read t)))) = read (printAll (read t)) := by
  have hrecognized : ∀ d ∈ read t, Recognized d := recognized_of_read
  have hstable := read_printAll_eq_self_iff hrecognized
  refine ⟨hstable, fun ht => hstable.mpr fun d hd => ?_, ?_⟩
  · obtain ⟨name, value, hstands, rfl⟩ := exists_stands hd
    exact hstands.not_endsMarked ht
  · have hreread : ∀ d ∈ (read t).map reread, Recognized d :=
      List.forall_mem_map.mpr fun d hd => (hrecognized d hd).reread
    rw [read_printAll_recognized hrecognized, read_printAll_recognized hreread, List.map_map]
    exact List.map_congr_left fun d hd => reread_reread (hrecognized d hd)

theorem read_print_read_spaced :
    (∀ c ∈ "margin: 1px! Important !important ;\tcolor : red\x0b".toList,
        isBlank c = true → isGap c = true) ∧
      read (printAll (read "margin: 1px! Important !important ;\tcolor : red\x0b")) =
        read "margin: 1px! Important !important ;\tcolor : red\x0b" := by
  have hall : ("margin: 1px! Important !important ;\tcolor : red\x0b".toList.all
      fun c => !isBlank c || isGap c) = true := by decide
  have hblank : ∀ c ∈ "margin: 1px! Important !important ;\tcolor : red\x0b".toList,
      isBlank c = true → isGap c = true := fun c hc hc' => by
    simpa [hc'] using List.all_eq_true.mp hall c hc
  exact ⟨hblank, (read_print_read _).2.1 hblank⟩

/-- A no-break space hides the mark from the first reading and is gone for the second one. -/
theorem not_read_print_read_nbsp :
    read "margin: 1px!important\u00a0" = [⟨"margin", "1px!important", false⟩] ∧
      read (printAll (read "margin: 1px!important\u00a0")) = [⟨"margin", "1px", true⟩] ∧
      read (printAll (read "margin: 1px!important\u00a0")) ≠
        read "margin: 1px!important\u00a0" := by
  decide

end StyleFold.Reader.Lenient
