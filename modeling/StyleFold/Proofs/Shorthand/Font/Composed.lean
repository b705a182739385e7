import StyleFold.Proofs.Declaration.Priority
import StyleFold.Proofs.Shorthand.Font.Clear
import StyleFold.Proofs.Shorthand.Font.Letters

/-!
What the font that longhands make up expands to. Without a value for any slot it is `initial`, which
stands for every slot. A system font stands alone. Otherwise there are a size and a family.
-/
namespace StyleFold.FontShorthand
open Declaration Text Pattern

variable {policy : DuplicatePolicy} {found : FontSlot → Declaration} {ds : List Declaration}
  {d : Declaration} {f : Filling} {size family : List Char} {important : Bool}

theorem eq_of_collapse (hfound : ∀ s, declared policy ds s = .ok (found s))
    (h : collapse policy ds = .ok d) :
    ∃ words, sizeWords (FontSlot.all.map fun s => (s, found s)) = .ok words ∧
      d = ⟨property, composed found words, d.important⟩ ∧ ∀ s, (found s).important = d.important := by
  obtain ⟨words, hwords⟩ :
      ∃ words, sizeWords (FontSlot.all.map fun s => (s, found s)) = .ok words := by
    rw [collapse, selected_eq_ok hfound] at h
    obtain ⟨_, hselected, h⟩ := bind_eq_ok.mp h
    obtain rfl := Except.ok.inj hselected
    obtain ⟨_, -, h⟩ := bind_eq_ok.mp h
    obtain ⟨words, hwords, -⟩ := bind_eq_ok.mp h
    exact ⟨words, hwords⟩
  rw [collapse_eq hfound hwords] at h
  obtain ⟨b, hb, rfl⟩ := map_eq_ok.mp h
  exact ⟨words, hwords, rfl, fun s =>
    important_eq_of_sharedPriority hb _ (List.mem_map_of_mem (mem_all s))⟩

theorem eq_text_of_collapse (hfound : ∀ s, declared policy ds s = .ok (found s))
    (hgiven : ∀ s, given found s = f.get? s) (h : collapse policy ds = .ok d) :
    d = ⟨property, String.ofList f.text, d.important⟩ := by
  obtain ⟨words, hwords, hd, -⟩ := eq_of_collapse hfound h
  obtain rfl := Except.ok.inj (hwords.symm.trans (sizeWords_found hgiven))
  rwa [composed_eq hgiven] at hd

theorem expand_of_replays (hgiven : ∀ s, given found s = f.get? s)
    (h : Replays font f.text f.caught) :
    Shorthand.expand ⟨.font, policy⟩ ⟨property, String.ofList f.text, important⟩ =
      .ok (trimmedDeclarations found important) := by
  obtain ⟨m, hm, htexts⟩ := match?_of_replays h
  rw [← declarations_eq hgiven]
  refine expand_eq (m := m) ?_ (group?_of_texts htexts)
  rw [String.toList_ofList]
  exact hm

/-- A font with a size has a gap in front of its family. -/
theorem exists_stop_of_language {slots : List FontSlot} {w : List Char}
    (h : Language (sizedBehind slots) w) : ∃ c ∈ w, isStop c = true := by
  induction slots generalizing w with
  | nil =>
    obtain ⟨u, v, rfl, -, hv⟩ := h
    obtain ⟨c, r, rfl, hc⟩ := starts_behindSize v hv
    exact ⟨c, by simp, hc⟩
  | cons s slots ih =>
    obtain ⟨u, v, rfl, -, hv⟩ := h
    obtain ⟨c, hmem, hc⟩ := ih hv
    exact ⟨c, List.mem_append_right u hmem, hc⟩

theorem replays_system {w : List Char} (hw : Language (slot .system) w) :
    Replays font w [(FontSlot.system.group, w)] := by
  refine (replays_last hw).alt_right ?_
  rintro ⟨v, gap, rfl, hv, -⟩
  have hsized : Language (sizedBehind leadingSlots) v := hv
  obtain ⟨c, hmem, hc⟩ := exists_stop_of_language hsized
  have hsolid := (solid_slot (s := .system) (by decide)).not_isStop hw
  rw [hsolid c (List.mem_append_left gap hmem)] at hc
  contradiction

theorem isClear_of_unset {values : FontSlot → Option (List Char)}
    (h : ∀ s, s ≠ .system → values s = none) : isClear values leadingSlots = true := by
  simp [leadingSlots, isClear, takesNext, h]

/-- A font without a size and a family is `initial` or a system font. -/
theorem expand_composed_of_unset (hfound : ∀ s, declared policy ds s = .ok (found s))
    (hfit : ∀ s, ∀ w ∈ given found s, Language (slot s) w)
    (hunset : ∀ s, s ≠ .system → given found s = none)
    (h : Shorthand.collapse ⟨.font, policy⟩ ds = .ok d) :
    Shorthand.expand ⟨.font, policy⟩ d = .ok (trimmedDeclarations found d.important) := by
  cases hsystem : given found .system with
  | none =>
    have hnone (s : FontSlot) : given found s = none := by
      by_cases hs : s = .system
      · rw [hs, hsystem]
      · exact hunset s hs
    have hnowords : sizeWords (FontSlot.all.map fun s => (s, found s)) = .ok [] := by
      simp only [sizeWords, given?_found, hnone, Option.map_none]
    have hparts : parts found [] = [] := by
      simp only [parts, hnone, Option.map_none, Option.toList_none, List.append_nil]
    have hinitial : composed found [] = initial := by rw [composed, if_pos hparts]
    have hlonghands : longhands initial = FontSlot.all.map fun s => ⟨s.longhand, initial, false⟩ := by
      decide +kernel
    obtain ⟨words, hwords, hd, -⟩ := eq_of_collapse hfound h
    obtain rfl := Except.ok.inj (hwords.symm.trans hnowords)
    rw [hd, hinitial, Shorthand.expand_eq_ok rfl, Family.longhands, hlonghands, List.map_map]
    refine congrArg Except.ok (List.map_congr_left fun s _ => ?_)
    rw [hnone]
    rfl
  | some w =>
    have hgiven (s : FontSlot) : given found s = (Filling.system w).get? s := by
      cases s with
      | system => exact hsystem
      | _ => exact hunset _ (by decide)
    rw [eq_text_of_collapse hfound hgiven h]
    exact expand_of_replays hgiven (replays_system (hfit .system w hsystem))

/-- A font with a size and a family is matched as it was made up where it is clear. -/
theorem expand_composed_of_sized (hfound : ∀ s, declared policy ds s = .ok (found s))
    (hsized : Sized (given found) size family) (hsystem : given found .system = none)
    (h : Shorthand.collapse ⟨.font, policy⟩ ds = .ok d) :
    Shorthand.expand ⟨.font, policy⟩ d = .ok (trimmedDeclarations found d.important) ↔
      isClear (given found) leadingSlots = true := by
  obtain ⟨f, hf⟩ : ∃ f : Filling, f = .sized (given found .style) (given found .variant)
    (given found .weight) size (given found .height) family := ⟨_, rfl⟩
  have hgiven (s : FontSlot) : given found s = f.get? s := by
    subst hf
    cases s with
    | size => exact hsized.size
    | family => exact hsized.family
    | system => exact hsystem
    | _ => rfl
  have htext : f.text = textBehind (given found) size family leadingSlots := by rw [hf]; rfl
  have hcaught : f.caught = caughtBehind (given found) size family leadingSlots := by
    rw [hf]
    simp [Filling.caught, FontSlot.all, Filling.get?, caughtBehind, leadingSlots, caughtBy]
  have haccepts : Accepts sizedFont f.text := htext ▸ accepts_textBehind hsized leadingSlots
  obtain ⟨m, first, hm, hrun⟩ := exists_match?_of_accepts haccepts.alt_left
  rw [font, run_alt_left regular_sizedFont.floating haccepts le_rfl, htext] at hrun
  obtain ⟨hclear, htaken⟩ := matched_of_run hsized (by decide) le_rfl hrun
  have hmatch : match? (String.ofList f.text).toList.length value true (String.ofList f.text).toList =
      some m := by rwa [String.toList_ofList]
  rw [eq_text_of_collapse hfound hgiven h]
  refine ⟨fun hexpand => ?_, fun hc => ?_⟩
  · by_contra hne
    obtain ⟨s, -, hnone, w, hw, hword⟩ := htaken (Bool.not_eq_true _ ▸ hne)
    have hvalues := (expand_of_match? hmatch).symm.trans hexpand
    obtain ⟨-, hvalue, -⟩ :=
      Declaration.mk.inj (List.map_inj_left.mp (Except.ok.inj hvalues) s (mem_all s))
    rw [slotValue, hw, hnone] at hvalue
    exact hword (eq_initial_of_ofList hvalue)
  · rw [← declarations_eq hgiven]
    refine expand_eq hmatch (group?_of_texts ?_)
    rw [hclear hc, hcaught]
    exact List.append_nil _

/-- A font has a place for the values: there are none, or that of a system font alone, or a size and a
family among them and no system font. -/
def hasPlace (values : FontSlot → Option (List Char)) : Bool :=
  ([.style, .variant, .weight, .size, .height, .family].all fun s => (values s).isNone) ||
    (values .size).isSome && (values .family).isSome && (values .system).isNone

theorem hasPlace_iff {values : FontSlot → Option (List Char)} : hasPlace values = true ↔
    (∀ s, s ≠ .system → values s = none) ∨
      (∃ size, values .size = some size) ∧ (∃ family, values .family = some family) ∧
        values .system = none := by
  rw [hasPlace, Bool.or_eq_true_iff, Bool.and_eq_true_iff, Bool.and_eq_true_iff,
    Option.isSome_iff_exists, Option.isSome_iff_exists, Option.isNone_iff_eq_none, and_assoc]
  refine or_congr_left ⟨fun h s hs => ?_, fun h => ?_⟩
  · cases s <;> simp_all
  · simp [h]

theorem hasPlace_filling (f : Filling) : hasPlace f.get? = true := by
  cases f with
  | sized => exact hasPlace_iff.mpr (.inr ⟨⟨_, rfl⟩, ⟨_, rfl⟩, rfl⟩)
  | system => rfl

/-- The longhands that made up a font are found again in it just where it has a place for their values
and no slot that is not set takes the word behind it. -/
theorem expand_composed_iff (hfound : ∀ s, declared policy ds s = .ok (found s))
    (hfit : ∀ s, ∀ w ∈ given found s, (slot s).fits w = true)
    (h : Shorthand.collapse ⟨.font, policy⟩ ds = .ok d) :
    (∀ s, (found s).important = d.important) ∧
      (Shorthand.expand ⟨.font, policy⟩ d = .ok (FontSlot.all.map fun s =>
          ⟨s.longhand, (given found s).elim initial String.ofList, d.important⟩) ↔
        hasPlace (given found) = true ∧ isClear (given found) leadingSlots = true) := by
  have hlang (s : FontSlot) (w : List Char) (hw : w ∈ given found s) : Language (slot s) w :=
    (fits_iff (isFloating_slot s)).mp (hfit s w hw)
  obtain ⟨words, hwords, hd, hshared⟩ := eq_of_collapse hfound h
  refine ⟨hshared, ?_⟩
  by_cases hplace : hasPlace (given found) = true
  · refine Iff.trans ?_ (and_iff_right hplace).symm
    obtain hunset | ⟨⟨size, hsize⟩, ⟨family, hfamily⟩, hsystem⟩ := hasPlace_iff.mp hplace
    · exact iff_of_true (expand_composed_of_unset hfound hlang hunset h) (isClear_of_unset hunset)
    · exact expand_composed_of_sized hfound ⟨hsize, hfamily, hlang, fun s w => ne_initial_of_given⟩
        hsystem h
  · refine iff_of_false (fun hexpand => hplace ?_) fun hboth => hplace hboth.1
    rw [hd] at hexpand
    obtain hnone | hletters := letters_composed hwords
    · exact hasPlace_iff.mpr (.inl fun s _ => hnone s)
    · obtain ⟨f, hf⟩ := exists_filling_of_expand hletters hexpand
      rw [funext hf]
      exact hasPlace_filling f

/-- The weight would take the size `inherit` if there were no line height. -/
def oblique : FontSlot → Declaration
  | .style => ⟨"font-style", " Oblique", true⟩
  | .variant => ⟨"font-variant", "normal", true⟩
  | .weight => ⟨"font-weight", "INITIAL\u00a0", true⟩
  | .size => ⟨"font-size", "inherit", true⟩
  | .height => ⟨"line-height", "1.5", true⟩
  | .family => ⟨"font-family", "\"a  b\" , Medium Arial\n", true⟩
  | .system => ⟨"font-values", "initial", true⟩

theorem expand_composed_iff_oblique :
    (∀ s, declared .reject (FontSlot.all.map oblique) s = .ok (oblique s)) ∧
      (∀ s, ∀ w ∈ given oblique s, (slot s).fits w = true) ∧
      Shorthand.collapse ⟨.font, .reject⟩ (FontSlot.all.map oblique) =
        .ok ⟨"font", "Oblique normal inherit/1.5 \"a  b\" , Medium Arial", true⟩ ∧
      Shorthand.expand ⟨.font, .reject⟩
          ⟨"font", "Oblique normal inherit/1.5 \"a  b\" , Medium Arial", true⟩ =
        .ok [⟨"font-style", "Oblique", true⟩, ⟨"font-variant", "normal", true⟩,
          ⟨"font-weight", "initial", true⟩, ⟨"font-size", "inherit", true⟩,
          ⟨"font-height", "1.5", true⟩, ⟨"font-family", "\"a  b\" , Medium Arial", true⟩,
          ⟨"font-values", "initial", true⟩] := by
  have hfound (s : FontSlot) :
      declared .reject (FontSlot.all.map oblique) s = .ok (oblique s) := by
    cases s <;> decide +kernel
  have hfit (s : FontSlot) : ∀ w ∈ given oblique s, (slot s).fits w = true := by
    cases s <;> decide +kernel
  have hcollapse : Shorthand.collapse ⟨.font, .reject⟩ (FontSlot.all.map oblique) =
      .ok ⟨"font", "Oblique normal inherit/1.5 \"a  b\" , Medium Arial", true⟩ := by decide +kernel
  obtain ⟨-, hiff⟩ := expand_composed_iff hfound hfit hcollapse
  refine ⟨hfound, hfit, hcollapse, (hiff.mpr (by decide +kernel)).trans ?_⟩
  decide +kernel

def fontWith (values : List (FontSlot × String)) (s : FontSlot) : Declaration :=
  ⟨s.longhand, (values.lookup s).getD initial, false⟩

/-- A variant `normal` without a style is taken for the style, and a style alone for no font. -/
theorem not_expand_composed :
    let normal := fontWith [(.variant, "normal"), (.size, "12px"), (.family, "Arial")]
    let italic := fontWith [(.style, "italic")]
    (∀ s ∈ FontSlot.all, declared .first (FontSlot.all.map normal) s = .ok (normal s) ∧
        ∀ w ∈ given normal s, (slot s).fits w = true) ∧
      Shorthand.collapse ⟨.font, .first⟩ (FontSlot.all.map normal) =
        .ok ⟨"font", "normal 12px Arial", false⟩ ∧
      Shorthand.expand ⟨.font, .first⟩ ⟨"font", "normal 12px Arial", false⟩ ≠
        .ok (FontSlot.all.map normal) ∧
      (∀ s ∈ FontSlot.all, declared .first (FontSlot.all.map italic) s = .ok (italic s) ∧
        ∀ w ∈ given italic s, (slot s).fits w = true) ∧
      Shorthand.collapse ⟨.font, .first⟩ (FontSlot.all.map italic) =
        .ok ⟨"font", "italic", false⟩ ∧
      Shorthand.expand ⟨.font, .first⟩ ⟨"font", "italic", false⟩ ≠
        .ok (FontSlot.all.map italic) := by
  decide +kernel

end StyleFold.FontShorthand
