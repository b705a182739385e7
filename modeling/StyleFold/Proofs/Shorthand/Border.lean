import StyleFold.Proofs.Declaration.Priority
import StyleFold.Proofs.Shorthand.Collapsible
import StyleFold.Proofs.Value.Kind

/-!
The `border` shorthand and its longhands. The components of a border are told apart by their kind, so
that the longhands of a border make it up again. A longhand that is of the kind of its part is found
again in the border that it is put into, unless its value is of the kind of another part as well.
-/
namespace StyleFold
open Text Value Lexeme Keyword Declaration
open Pattern (isWordOf_iff)

variable {policy : DuplicatePolicy} {d s : Declaration} {ds ls : List Declaration}
  {important : Bool} {v : List Char} {ws ws' : List String}

namespace Value

theorem isWordOf_congr {w : List Char} (h : lower v = lower w) (ws : List String) :
    isWordOf ws v = isWordOf ws w := by
  simp only [isWordOf, sameWord, h]

theorem exists_of_isWordOf (h : isWordOf ws v = true) (h' : isWordOf ws' v = true) :
    ∃ x ∈ ws, isWordOf ws' x.toList = true ∧ sameWord v x.toList = true := by
  obtain ⟨x, hx, hlower⟩ := isWordOf_iff.mp h
  exact ⟨x, hx, isWordOf_congr hlower ws' ▸ h', sameWord_iff.mpr hlower⟩

theorem not_isWordOf (hws : (ws.all fun x => !isWordOf ws' x.toList) = true)
    (h : isWordOf ws v = true) : isWordOf ws' v = false := by
  rw [← Bool.not_eq_true]
  intro h'
  obtain ⟨x, hx, hword, -⟩ := exists_of_isWordOf h h'
  have hnot := List.all_eq_true.mp hws x hx
  rw [hword] at hnot
  contradiction

theorem exists_sole_of_isLength (h : isLength v = true) :
    ∃ t, sole? v = some t ∧ isLengthToken t = true :=
  (Option.any_eq_true _ _).mp h

theorem exists_sole_of_isColor (h : isColor v = true) :
    ∃ t, sole? v = some t ∧ isColorToken t = true :=
  (Option.any_eq_true _ _).mp h

end Value

namespace BorderPart

def accepts : BorderPart → List Char → Bool
  | width, v => isBorderWidth v
  | style, v => (ofText? BorderStyle v).isSome
  | color, v => isColor v

variable {part : BorderPart} {component : String}

theorem isBorderWidth_eq_false (hlength : isLength v = false)
    (hword : isWordOf (words LineWidth) v = false) : isBorderWidth v = false := by
  rw [isBorderWidth, hlength, ofText?_isSome, hword, Bool.or_false]

theorem exists_sole_of_accepts (h : part.accepts v = true) : ∃ t, sole? v = some t := by
  cases part with
  | width =>
    obtain h | h := Bool.or_eq_true_iff.mp h
    · obtain ⟨t, ht, -⟩ := exists_sole_of_isLength h
      exact ⟨t, ht⟩
    · rw [ofText?_isSome] at h
      exact ⟨_, sole_of_isWordOf (by decide) h⟩
  | style =>
    rw [accepts, ofText?_isSome] at h
    exact ⟨_, sole_of_isWordOf (by decide) h⟩
  | color =>
    obtain ⟨t, ht, -⟩ := exists_sole_of_isColor h
    exact ⟨t, ht⟩

theorem piece_of_accepts (h : part.accepts v = true) (hwhole : Whole v) (htrim : trim v = v) :
    Piece v := by
  obtain ⟨t, ht⟩ := exists_sole_of_accepts h
  refine ⟨hwhole.plain, hwhole.ended, hwhole.closed, ?_,
    isFree_of_sole hwhole.plain htrim (uncommented_of_not_isInfix hwhole.uncommented) ht, htrim⟩
  rintro rfl
  cases ht

theorem ofComponent?_of_isBorderWidth (h : isBorderWidth component.toList = true) :
    ofComponent? component = some width :=
  if_pos h

theorem ofComponent?_of_style (h : isWordOf (words BorderStyle) component.toList = true) :
    ofComponent? component = some style := by
  have hlength : isLength component.toList = false := by
    rw [isLength, sole_of_isWordOf (by decide) h]
    rfl
  have hword : isWordOf (words LineWidth) component.toList = false := by
    rw [← Bool.not_eq_true]
    intro hword
    rw [not_isWordOf (by decide +kernel) hword] at h
    contradiction
  rw [ofComponent?]
  simp only [isBorderWidth_eq_false hlength hword, ofText?_isSome, h, Bool.false_eq_true, if_false,
    if_true]

/-- A color with the spelling of another word is a color word. -/
theorem isWordOf_of_isColor (hws : areLetters ws = true) (hcolor : isColor v = true)
    (h : isWordOf ws v = true) : isWordOf (namedColors ++ specialColors) v = true := by
  obtain ⟨t, ht, htoken⟩ := exists_sole_of_isColor hcolor
  rw [sole_of_isWordOf hws h] at ht
  rwa [← Option.some.inj ht] at htoken

theorem ofComponent?_of_color (hcolor : isColor component.toList = true)
    (hstyle : isWordOf (words BorderStyle) component.toList = false) :
    ofComponent? component = some color := by
  have hlength : isLength component.toList = false := by
    obtain ⟨t, ht, htoken⟩ := exists_sole_of_isColor hcolor
    rw [isLength, ht, Option.any_some]
    cases t <;> first | rfl | cases htoken
  have hword : isWordOf (words LineWidth) component.toList = false := by
    rw [← Bool.not_eq_true]
    intro hword
    have hnot := isWordOf_of_isColor (by decide) hcolor hword
    rw [not_isWordOf (by decide +kernel) hword] at hnot
    contradiction
  rw [ofComponent?]
  simp only [isBorderWidth_eq_false hlength hword, ofText?_isSome, hstyle, hcolor, Bool.true_or,
    Bool.false_eq_true, if_false, if_true]

theorem isWordOf_style_iff (hcolor : isColor v = true) :
    isWordOf (words BorderStyle) v = true ↔ sameWord v "inherit".toList = true := by
  refine ⟨fun hstyle => ?_, fun h => ?_⟩
  · obtain ⟨x, hx, hcolor, hv⟩ :=
      exists_of_isWordOf hstyle (isWordOf_of_isColor (by decide) hcolor hstyle)
    have hinherit : ∀ x ∈ words BorderStyle,
        isWordOf (namedColors ++ specialColors) x.toList = true → x = "inherit" := by
      decide +kernel
    rwa [hinherit x hx hcolor] at hv
  · rw [isWordOf_congr (sameWord_iff.mp h)]
    decide

/-- A value of the kind of a part is taken as that part, but the color `inherit` as a style. -/
theorem ofComponent?_eq_iff (h : part.accepts component.toList = true) :
    ofComponent? component = some part ↔
      (part = color → sameWord component.toList "inherit".toList = false) := by
  cases part with
  | width => simp [ofComponent?_of_isBorderWidth h]
  | style =>
    rw [accepts, ofText?_isSome] at h
    simp [ofComponent?_of_style h]
  | color =>
    have hiff := isWordOf_style_iff h
    cases hstyle : isWordOf (words BorderStyle) component.toList with
    | true =>
      rw [ofComponent?_of_style hstyle, hiff.mp hstyle]
      simp
    | false =>
      rw [hstyle] at hiff
      simpa [ofComponent?_of_color h hstyle] using hiff

end BorderPart

namespace BorderShorthand

variable {component : BorderPart → Option String} {found : BorderPart → Option Declaration}
  {parts : List BorderPart}

theorem mem_all (part : BorderPart) : part ∈ BorderPart.all := by
  cases part <;> decide

theorem component?_filterMap
    (h : ∀ part, ∀ c ∈ component part, BorderPart.ofComponent? c = some part) (part : BorderPart) :
    component? (BorderPart.all.filterMap component) part = component part := by
  cases hfind : component? (BorderPart.all.filterMap component) part with
  | some c =>
    obtain ⟨other, -, hother⟩ := List.mem_filterMap.mp (List.mem_of_find?_eq_some hfind)
    have hc : BorderPart.ofComponent? c = some part := by simpa using List.find?_some hfind
    rw [h other c hother] at hc
    rw [← Option.some.inj hc, hother]
  | none =>
    cases hpart : component part with
    | none => rfl
    | some c =>
      have hmem : c ∈ BorderPart.all.filterMap component :=
        List.mem_filterMap.mpr ⟨part, mem_all part, hpart⟩
      exact absurd (h part c hpart) (by simpa using List.find?_eq_none.mp hfind c hmem)

theorem declaredParts_injective {other : BorderPart → Option String}
    (h : declaredParts component important = declaredParts other important) :
    component = other := by
  funext part
  have hfind : find .first part.longhand (declaredParts component important) =
      .ok (declared? component important part) := find_declaredParts part
  rw [h, find_declaredParts] at hfind
  rw [Except.ok.injEq] at hfind
  cases hc : component part <;> cases ho : other part <;> simp_all [declared?]

/-- A border made up of pieces has the longhands of its components just if each of them is taken as
its own part. -/
theorem longhands_spaced_iff
    (h : ∀ part, ∀ c ∈ component part, Piece c.toList ∧ Uncommented c.toList) :
    (longhands (spaced (BorderPart.all.filterMap component))).map
        (fun l => l.withPriority important) = declaredParts component important ↔
      ∀ part, ∀ c ∈ component part, BorderPart.ofComponent? c = some part := by
  have hmem : ∀ c ∈ BorderPart.all.filterMap component, Piece c.toList ∧ Uncommented c.toList := by
    intro c hc
    obtain ⟨part, -, hpart⟩ := List.mem_filterMap.mp hc
    exact h part c hpart
  rw [longhands_eq_declaredParts,
    split_pieces (fun c hc => (hmem c hc).1) fun c hc => (hmem c hc).2]
  refine ⟨fun heq part c hc => ?_, fun hkind => ?_⟩
  · rw [← declaredParts_injective heq] at hc
    simpa using List.find?_some hc
  · rw [funext (component?_filterMap hkind)]

theorem selected_eq (hfound : ∀ part, find policy part.longhand ds = .ok (found part))
    (h : selected policy ds parts = .ok ls) : ls = parts.filterMap found := by
  induction parts generalizing ls with
  | nil =>
    cases h
    rfl
  | cons part parts ih =>
    rw [selected, hfound] at h
    cases hpart : found part with
    | none =>
      rw [hpart] at h
      rw [List.filterMap_cons_none hpart]
      exact ih h
    | some d =>
      rw [hpart] at h
      simp only [bind, Except.bind] at h
      split at h
      · obtain ⟨rest, hrest, h⟩ := bind_eq_ok.mp h
        cases h
        rw [List.filterMap_cons_some hpart, ← ih hrest]
      · contradiction

theorem eq_of_collapse (hfound : ∀ part, find policy part.longhand ds = .ok (found part))
    (h : collapse policy ds = .ok s) :
    s = ⟨property, spaced (BorderPart.all.filterMap fun part => (found part).map trimmedValue),
        s.important⟩ ∧
      ∀ part, ∀ d ∈ found part, d.important = s.important := by
  obtain ⟨ls, hselected, h⟩ := bind_eq_ok.mp h
  obtain rfl := selected_eq hfound hselected
  cases hls : BorderPart.all.filterMap found with
  | nil =>
    rw [hls] at h
    contradiction
  | cons e rest =>
    rw [hls] at h
    obtain ⟨b, hb, h⟩ := bind_eq_ok.mp h
    obtain rfl := Except.ok.inj h
    have hshared := important_eq_of_sharedPriority hb
    have hlowercase : lowercase property = property := by decide
    rw [← hls] at hshared ⊢
    rw [List.map_filterMap, Declaration.of, hlowercase]
    exact ⟨rfl, fun part d hd => hshared d (List.mem_filterMap.mpr ⟨part, mem_all part, hd⟩)⟩

theorem map_declared? (h : ∀ part, ∀ c ∈ component part, trim c.toList = c.toList) :
    (fun part => (declared? component important part).map trimmedValue) = component := by
  funext part
  rw [declared?, Option.map_map]
  cases hpart : component part with
  | none => rfl
  | some c =>
    rw [Option.map_some, Function.comp_apply, trimmedValue, h part c hpart, String.ofList_toList]

/-- The longhands of a border collapse to the first components of its parts, and the border that these
make up has the same longhands. -/
theorem collapse_expanded (hclean : Clean d.value.toList) (hcomment : ¬['/', '*'] <:+: d.value.toList)
    (hexpand : Shorthand.expand ⟨.border, policy⟩ d = .ok ls) (hne : ls ≠ []) :
    let first := BorderPart.all.filterMap (component? (split d.value))
    Shorthand.collapse ⟨.border, policy⟩ ls = .ok ⟨property, spaced first, d.important⟩ ∧
      Shorthand.expand ⟨.border, policy⟩ ⟨property, spaced first, d.important⟩ = .ok ls := by
  have hd := Shorthand.property_of_expand hexpand
  rw [Shorthand.expand_eq_ok hd] at hexpand
  obtain rfl := Except.ok.inj hexpand
  rw [ne_eq, List.map_eq_nil_iff] at hne
  have hmem {part : BorderPart} {c : String} (hc : c ∈ component? (split d.value) part) :
      Component c.toList ∧ Uncommented c.toList := by
    obtain ⟨w, hw, rfl⟩ := List.mem_map.mp (List.mem_of_find?_eq_some hc)
    rw [String.toList_ofList]
    exact ⟨component_of_mem hclean hw, uncommented_of_mem hclean hw hcomment⟩
  have hdeclared := longhands_eq_declaredParts d.value d.important
  refine ⟨?_, ?_⟩
  · obtain ⟨value, hvalue⟩ := @exists_collapse policy d.important d.value hne
    have hfind (part : BorderPart) : find policy part.longhand ((longhands d.value).map fun l =>
        l.withPriority d.important) = .ok (declared? (component? (split d.value)) d.important part) := by
      rw [hdeclared, find_declaredParts]
    obtain ⟨hvalues, -⟩ := eq_of_collapse hfind hvalue
    rw [map_declared? fun part c hc => (hmem hc).1.trim_eq] at hvalues
    rw [← hvalues]
    exact hvalue
  · rw [Shorthand.expand_eq_ok rfl]
    refine congrArg Except.ok ?_
    rw [Family.longhands, Family.longhands, hdeclared]
    refine (longhands_spaced_iff fun part c hc => ⟨(hmem hc).1.piece, (hmem hc).2⟩).mpr ?_
    exact fun part c hc => by simpa using List.find?_some hc

theorem collapse_expanded_repeated :
    Clean " 5 rgb(0, 0, 0)\tdotted thick\nsolid [1px] 2px".toList ∧
      ¬['/', '*'] <:+: " 5 rgb(0, 0, 0)\tdotted thick\nsolid [1px] 2px".toList ∧
      Shorthand.expand ⟨.border, .last⟩
          ⟨"border", " 5 rgb(0, 0, 0)\tdotted thick\nsolid [1px] 2px", true⟩ =
        .ok [⟨"border-width", "thick", true⟩, ⟨"border-style", "dotted", true⟩,
          ⟨"border-color", "rgb(0, 0, 0)", true⟩] ∧
      Shorthand.collapse ⟨.border, .last⟩ [⟨"border-width", "thick", true⟩,
          ⟨"border-style", "dotted", true⟩, ⟨"border-color", "rgb(0, 0, 0)", true⟩] =
        .ok ⟨"border", "thick dotted rgb(0, 0, 0)", true⟩ ∧
      Shorthand.expand ⟨.border, .last⟩ ⟨"border", "thick dotted rgb(0, 0, 0)", true⟩ =
        .ok [⟨"border-width", "thick", true⟩, ⟨"border-style", "dotted", true⟩,
          ⟨"border-color", "rgb(0, 0, 0)", true⟩] := by
  have hclean : Clean " 5 rgb(0, 0, 0)\tdotted thick\nsolid [1px] 2px".toList := by decide
  have hcomment : ¬['/', '*'] <:+: " 5 rgb(0, 0, 0)\tdotted thick\nsolid [1px] 2px".toList := by
    decide
  have hexpand : Shorthand.expand ⟨.border, .last⟩
      ⟨"border", " 5 rgb(0, 0, 0)\tdotted thick\nsolid [1px] 2px", true⟩ =
    .ok [⟨"border-width", "thick", true⟩, ⟨"border-style", "dotted", true⟩,
      ⟨"border-color", "rgb(0, 0, 0)", true⟩] := by decide +kernel
  have hfirst : BorderPart.all.filterMap
      (component? (split " 5 rgb(0, 0, 0)\tdotted thick\nsolid [1px] 2px")) =
    ["thick", "dotted", "rgb(0, 0, 0)"] := by decide +kernel
  have hagain := collapse_expanded hclean hcomment hexpand (List.cons_ne_nil _ _)
  rw [hfirst] at hagain
  exact ⟨hclean, hcomment, hexpand, hagain⟩

/-- Every longhand is found again in a border that was made up of it, unless it is the color
`inherit`. -/
theorem expand_collapsed_iff
    (hfound : ∀ part, find policy part.longhand ds = .ok (found part))
    (hfit : ∀ part, ∀ d ∈ found part,
      part.accepts d.trimmedValue.toList = true ∧ Whole d.trimmedValue.toList)
    (h : Shorthand.collapse ⟨.border, policy⟩ ds = .ok s) :
    (∀ part, ∀ d ∈ found part, d.important = s.important) ∧
      (Shorthand.expand ⟨.border, policy⟩ s =
          .ok (declaredParts (fun part => (found part).map trimmedValue) s.important) ↔
        ∀ d ∈ found .color, sameWord d.trimmedValue.toList "inherit".toList = false) := by
  obtain ⟨hs, hshared⟩ := eq_of_collapse hfound h
  refine ⟨hshared, ?_⟩
  have hvalues {part : BorderPart} {c : String} (hc : c ∈ (found part).map trimmedValue) :
      part.accepts c.toList = true ∧ Piece c.toList ∧ Uncommented c.toList := by
    obtain ⟨d, hd, rfl⟩ := Option.map_eq_some_iff.mp hc
    obtain ⟨haccepts, hwhole⟩ := hfit part d hd
    exact ⟨haccepts, BorderPart.piece_of_accepts haccepts hwhole d.trim_trimmedValue,
      uncommented_of_not_isInfix hwhole.uncommented⟩
  rw [hs, Shorthand.expand_eq_ok rfl, Except.ok.injEq, Family.longhands]
  refine (longhands_spaced_iff fun part c hc => (hvalues hc).2).trans ?_
  refine ⟨fun hkind d hd => ?_, fun hcolor part c hc => ?_⟩
  · have hc : d.trimmedValue ∈ (found .color).map trimmedValue := Option.mem_map_of_mem trimmedValue hd
    exact (BorderPart.ofComponent?_eq_iff (hvalues hc).1).mp (hkind .color _ hc) rfl
  · refine (BorderPart.ofComponent?_eq_iff (hvalues hc).1).mpr ?_
    rintro rfl
    obtain ⟨d, hd, rfl⟩ := Option.map_eq_some_iff.mp hc
    exact hcolor d hd

/-- A no-break space does not set the components of the color apart, and is trimmed off the width. -/
def frame : List Declaration :=
  [⟨"border-color", " RGB(0,\u00a00, 0) ", true⟩, ⟨"margin", "1px", false⟩,
    ⟨"border-width", "\u00a00", true⟩]

theorem expand_collapsed_iff_frame :
    (∀ part : BorderPart, find .reject part.longhand frame = .ok (declaring part.longhand frame).head?) ∧
      (∀ part : BorderPart, ∀ d ∈ (declaring part.longhand frame).head?,
        part.accepts d.trimmedValue.toList = true ∧ Whole d.trimmedValue.toList) ∧
      Shorthand.collapse ⟨.border, .reject⟩ frame =
        .ok ⟨"border", "0 RGB(0,\u00a00, 0)", true⟩ ∧
      Shorthand.expand ⟨.border, .reject⟩ ⟨"border", "0 RGB(0,\u00a00, 0)", true⟩ =
        .ok [⟨"border-width", "0", true⟩, ⟨"border-color", "RGB(0,\u00a00, 0)", true⟩] := by
  have hfound (part : BorderPart) :
      find .reject part.longhand frame = .ok (declaring part.longhand frame).head? := by
    cases part <;> decide
  have hfit (part : BorderPart) : ∀ d ∈ (declaring part.longhand frame).head?,
      part.accepts d.trimmedValue.toList = true ∧ Whole d.trimmedValue.toList := by
    cases part <;> decide +kernel
  have hcollapse : Shorthand.collapse ⟨.border, .reject⟩ frame =
      .ok ⟨"border", "0 RGB(0,\u00a00, 0)", true⟩ := by decide +kernel
  obtain ⟨-, hiff⟩ := expand_collapsed_iff hfound hfit hcollapse
  exact ⟨hfound, hfit, hcollapse, hiff.mpr (by decide +kernel)⟩

/-- A color `inherit` alone makes up a border that has a style instead. -/
theorem not_expand_collapsed_inherit :
    find .first "border-color" [⟨"border-color", "inherit", false⟩] =
        .ok (some ⟨"border-color", "inherit", false⟩) ∧
      BorderPart.color.accepts "inherit".toList = true ∧ Whole "inherit".toList ∧
      Shorthand.collapse ⟨.border, .first⟩ [⟨"border-color", "inherit", false⟩] =
        .ok ⟨"border", "inherit", false⟩ ∧
      Shorthand.expand ⟨.border, .first⟩ ⟨"border", "inherit", false⟩ ≠
        .ok [⟨"border-color", "inherit", false⟩] := by
  decide +kernel

end BorderShorthand
end StyleFold
