import StyleFold.Proofs.Shorthand.Font.Collapsed

/-!
The characters of a font besides its gaps. A slot that is not set comes back either with nothing or
with a word `initial` that was never given. So a font that expands to what it was made up of has a
place for all of that, or it would have to hold more characters than it does.
-/
namespace StyleFold.FontShorthand
open Declaration Text Pattern

variable {policy : DuplicatePolicy} {found : FontSlot → Declaration} {f : Filling} {important : Bool}
  {words : List String}

/-- How many characters besides gaps a text holds. -/
def letters (w : List Char) : Nat :=
  w.countP fun x => !isGap x

def lettersOf (values : FontSlot → Option (List Char)) : Nat :=
  (FontSlot.all.map fun s => (values s).elim 0 letters).sum + (values .height).elim 0 fun _ => 1

theorem letters_lead (o : Option (List Char)) (t : List Char) :
    letters (lead o t) = o.elim 0 letters + letters t := by
  have hspace : isGap ' ' = true := by decide
  cases o <;> simp [lead, letters, hspace]

theorem letters_text (f : Filling) : letters f.text = lettersOf f.get? := by
  cases f with
  | system name => simp [Filling.text, lettersOf, FontSlot.all, Filling.get?]
  | sized style variant weight size height family =>
    have hspace : isGap ' ' = true := by decide
    have hslash : isGap '/' = false := by decide
    have hheight : letters (slashed height) = height.elim 0 letters + height.elim 0 fun _ => 1 := by
      cases height <;> simp [slashed, letters, hslash]
    have hsize : letters (size ++ (slashed height ++ ' ' :: family)) =
        letters size + letters (slashed height) + letters family := by
      simp [letters, hspace, Nat.add_assoc]
    rw [Filling.text, letters_lead, letters_lead, letters_lead, hsize, hheight]
    simp [lettersOf, FontSlot.all, Filling.get?]
    omega

theorem letters_spaced (ps : List String) :
    letters (spaced ps).toList = (ps.map fun p => letters p.toList).sum := by
  induction ps with
  | nil => rfl
  | cons p ps ih =>
    by_cases hps : ps = []
    · subst hps
      simp [spaced]
    · have hspace : isGap ' ' = true := by decide
      rw [Value.toList_spaced_cons p hps, List.map_cons, List.sum_cons, ← ih]
      simp [letters, hspace]

theorem words_cases (h : sizeWords (FontSlot.all.map fun s => (s, found s)) = .ok words) :
    (words = [] ∧ given found .size = none ∧ given found .height = none) ∨
      ∃ size, given found .size = some size ∧
        words = [String.ofList (size ++ slashed (given found .height))] := by
  rw [sizeWords, given?_found, given?_found] at h
  cases hsize : given found .size with
  | none =>
    cases hheight : given found .height with
    | none =>
      rw [hsize, hheight] at h
      exact .inl ⟨(Except.ok.inj h).symm, rfl, rfl⟩
    | some height =>
      rw [hsize, hheight] at h
      contradiction
  | some size =>
    refine .inr ⟨size, rfl, ?_⟩
    cases hheight : given found .height with
    | none =>
      rw [hsize, hheight] at h
      rw [← Except.ok.inj h, slashed, List.append_nil]
    | some height =>
      rw [hsize, hheight] at h
      rw [← Except.ok.inj h, slashed]
      simp [String.append_assoc]

theorem letters_words (h : sizeWords (FontSlot.all.map fun s => (s, found s)) = .ok words) :
    (words.map fun p => letters p.toList).sum = (given found .size).elim 0 letters +
      (given found .height).elim 0 letters + (given found .height).elim 0 fun _ => 1 := by
  obtain ⟨rfl, hsize, hheight⟩ | ⟨size, hsize, rfl⟩ := words_cases h
  · simp [hsize, hheight]
  · have hslash : isGap '/' = false := by decide
    rw [hsize]
    cases given found .height with
    | none => simp [slashed]
    | some height =>
      simp [slashed, letters, hslash]
      omega

theorem letters_given (o : Option (List Char)) :
    ((o.map String.ofList).toList.map fun p => letters p.toList).sum = o.elim 0 letters := by
  cases o <;> simp

theorem letters_composed (h : sizeWords (FontSlot.all.map fun s => (s, found s)) = .ok words) :
    (∀ s, given found s = none) ∨
      letters (composed found words).toList = lettersOf (given found) := by
  by_cases hparts : parts found words = []
  · rw [parts] at hparts
    simp only [List.append_eq_nil_iff, Option.toList_eq_nil_iff, Option.map_eq_none_iff] at hparts
    obtain ⟨⟨⟨⟨⟨hstyle, hvariant⟩, hweight⟩, hwords⟩, hfamily⟩, hsystem⟩ := hparts
    obtain ⟨-, hsize, hheight⟩ | ⟨size, -, rfl⟩ := words_cases h
    · refine .inl fun s => ?_
      cases s with
      | style => exact hstyle
      | variant => exact hvariant
      | weight => exact hweight
      | size => exact hsize
      | height => exact hheight
      | family => exact hfamily
      | system => exact hsystem
    · contradiction
  · right
    rw [composed, if_neg hparts, letters_spaced, parts]
    simp only [List.map_append, List.sum_append, letters_given, letters_words h]
    simp [lettersOf, FontSlot.all]
    omega

/-- With `initial` in place of values that are not set a font holds more characters. -/
theorem lettersOf_lt {values other : FontSlot → Option (List Char)} {s : FontSlot}
    (h : ∀ s, values s = other s ∨ values s = none ∧ other s = some initial.toList)
    (hs : values s ≠ other s) : lettersOf values < lettersOf other := by
  have hinitial : 0 < letters initial.toList := by decide
  have hle (s : FontSlot) : (values s).elim 0 letters ≤ (other s).elim 0 letters := by
    obtain heq | ⟨hnone, -⟩ := h s
    · rw [heq]
    · rw [hnone]
      exact Nat.zero_le _
  have hslash : (values .height).elim 0 (fun _ => 1) ≤ (other .height).elim 0 fun _ => 1 := by
    obtain heq | ⟨hnone, -⟩ := h .height
    · rw [heq]
    · rw [hnone]
      exact Nat.zero_le _
  have hlt : (values s).elim 0 letters < (other s).elim 0 letters := by
    obtain heq | ⟨hnone, hsome⟩ := h s
    · exact absurd heq hs
    · rw [hnone, hsome]
      exact hinitial
  have hsum : (FontSlot.all.map fun s => (values s).elim 0 letters).sum <
      (FontSlot.all.map fun s => (other s).elim 0 letters).sum :=
    List.sum_lt_sum _ _ (fun s _ => hle s) ⟨s, mem_all s, hlt⟩
  exact Nat.add_lt_add_of_lt_of_le hsum hslash

theorem get?_of_declaration_eq {s : FontSlot}
    (h : f.value s = (given found s).elim initial String.ofList) :
    given found s = f.get? s ∨ given found s = none ∧ f.get? s = some initial.toList := by
  rw [Filling.value] at h
  cases hget : f.get? s with
  | none =>
    cases hgiven : given found s with
    | none => exact .inl rfl
    | some w =>
      rw [hget, hgiven] at h
      exact absurd (eq_initial_of_ofList h.symm) (ne_initial_of_given hgiven)
  | some w =>
    cases hgiven : given found s with
    | none =>
      rw [hget, hgiven] at h
      exact .inr ⟨rfl, congrArg some (eq_initial_of_ofList h)⟩
    | some v =>
      rw [hget, hgiven] at h
      exact .inl (congrArg some (String.ofList_injective h).symm)

/-- A font that expands to what it was made up of has a place for all of that. -/
theorem exists_filling_of_expand {v : String} (hletters : letters v.toList = lettersOf (given found))
    (h : Shorthand.expand ⟨.font, policy⟩ ⟨property, v, important⟩ =
      .ok (trimmedDeclarations found important)) :
    ∃ f : Filling, ∀ s, given found s = f.get? s := by
  cases hm : match? v.toList.length value true v.toList with
  | none =>
    rw [Shorthand.expand_eq_ok rfl, Family.longhands, longhands, hm] at h
    exact absurd (Except.ok.inj h) (by simp [trimmedDeclarations, FontSlot.all])
  | some m =>
    obtain ⟨gap, c, hv, hgap, hgroups, hrun⟩ := exists_behind_gap hm
    have hn : c.rest.length ≤ v.toList.length := by simp [hv]
    obtain ⟨f, hfollows⟩ := follows_font hn hrun
    have htexts : texts m.groups = f.caught := by
      rw [hfollows.groups, hgroups]
      exact List.append_nil _
    have hdeclarations := (expand_eq hm (group?_of_texts htexts)).symm.trans h
    have hslot (s : FontSlot) :
        given found s = f.get? s ∨ given found s = none ∧ f.get? s = some initial.toList := by
      obtain ⟨-, hvalue, -⟩ :=
        Declaration.mk.inj (List.map_inj_left.mp (Except.ok.inj hdeclarations) s (mem_all s))
      exact get?_of_declaration_eq hvalue
    refine ⟨f, fun s => ?_⟩
    by_contra hne
    have hlt := lettersOf_lt hslot hne
    have htext := filter_text hfollows.wide hgap
    rw [← hv] at htext
    rw [← letters_text, ← hletters, letters, letters, List.countP_eq_length_filter,
      List.countP_eq_length_filter, htext] at hlt
    exact absurd hlt (Nat.lt_irrefl _)

end StyleFold.FontShorthand
