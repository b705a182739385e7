import StyleFold.Proofs.Declaration.Priority
import StyleFold.Proofs.Shorthand.Collapsible

/-!
What the longhands of four sides collapse to expands to them again where every side has a single
component. The components of a side that has several are taken for the values of several sides.
-/
namespace StyleFold.SidesShorthand
open Declaration Text Value Lexeme Reader

variable {policy : DuplicatePolicy} {property : String} {naming : LonghandNaming}
  {found : Side → Declaration} {ds : List Declaration} {s : Declaration}

def trimmedValues (found : Side → Declaration) : Sides String :=
  ⟨(found .top).trimmedValue, (found .right).trimmedValue, (found .bottom).trimmedValue,
    (found .left).trimmedValue⟩

theorem get_trimmedValues (side : Side) :
    (trimmedValues found).get side = (found side).trimmedValue := by
  cases side <;> rfl

theorem joined_found : joined (Side.all.map found) = spaced (trimmedValues found).collapse :=
  rfl

theorem eq_of_collapse (hn : Names property naming)
    (hfound : ∀ side, find policy (naming.longhand property side) ds = .ok (some (found side)))
    (h : collapse policy property naming ds = .ok s) :
    s = ⟨property, spaced (trimmedValues found).collapse, s.important⟩ ∧
      ∀ side, (found side).important = s.important := by
  rw [collapse, selected_eq_ok hfound] at h
  split at h
  case isFalse => cases h
  obtain ⟨ls, hls, h⟩ := bind_eq_ok.mp h
  obtain rfl := Except.ok.inj hls
  obtain ⟨b, hb, h⟩ := bind_eq_ok.mp h
  obtain rfl := Except.ok.inj h
  rw [joined_found, Declaration.of, lowercase_of_isLettered hn.shorthand]
  exact ⟨rfl, fun side =>
    important_eq_of_sharedPriority hb _ (List.mem_map_of_mem (Side.mem_all side))⟩

/-- Whatever is expanded to the values of four sides is a single component. -/
theorem length_split_of_longhands {value : String} {important : Bool} {sides : Sides String}
    (hn : Names property naming)
    (h : (longhands property naming value).map (fun l => l.withPriority important) =
      Side.all.map (declared property naming sides important)) (side : Side) :
    (split (sides.get side)).length = 1 := by
  cases hother : Sides.ofList? (split value) with
  | none =>
    rw [longhands, hother] at h
    cases h
  | some other =>
    rw [longhands_eq_declared hn hother] at h
    obtain ⟨-, hvalue, -⟩ := Declaration.mk.inj (List.map_inj_left.mp h side (Side.mem_all side))
    rw [← hvalue]
    exact length_split_of_mem (Sides.get_mem hother side)

/-- Every side is found again in the shorthand that it was made part of just where every side has a
single component. -/
theorem expand_joined_iff (hs : ⟨.sides property naming, policy⟩ ∈ Shorthand.builtIn policy)
    (hfound : ∀ side, find policy (naming.longhand property side) ds = .ok (some (found side)))
    (hwhole : ∀ side, (found side).trimmedValue ≠ "" ∧ Whole (found side).trimmedValue.toList)
    (h : Shorthand.collapse ⟨.sides property naming, policy⟩ ds = .ok s) :
    (∀ side, (found side).important = s.important) ∧
      (Shorthand.expand ⟨.sides property naming, policy⟩ s = .ok (Side.all.map fun side =>
          ⟨naming.longhand property side, (found side).trimmedValue, s.important⟩) ↔
        ∀ side, (split (found side).trimmedValue).length = 1) := by
  have hn := names_of_mem hs
  obtain ⟨hvalue, hshared⟩ := eq_of_collapse hn hfound h
  have hdeclared : (Side.all.map fun side => ⟨naming.longhand property side,
      (found side).trimmedValue, s.important⟩) =
        Side.all.map (declared property naming (trimmedValues found) s.important) :=
    List.map_congr_left fun side _ => by rw [declared, get_trimmedValues]
  refine ⟨hshared, ?_⟩
  rw [Shorthand.expand_eq_ok (by rw [hvalue]; rfl), Except.ok.injEq, hdeclared]
  refine ⟨fun heq side => ?_, fun hsole => ?_⟩
  · rw [← get_trimmedValues]
    exact length_split_of_longhands hn heq side
  have huncommented (side : Side) : Uncommented (found side).trimmedValue.toList :=
    uncommented_of_not_isInfix (hwhole side).2.uncommented
  have hpiece (side : Side) : Piece (found side).trimmedValue.toList := by
    obtain ⟨hne, hw⟩ := hwhole side
    refine hw.piece (fun hnil => hne (String.toList_eq_nil_iff.mp hnil))
      (found side).trim_trimmedValue ?_
    simpa [split] using hsole side
  have hsides {w : String} (hw : w ∈ (trimmedValues found).collapse) :
      Piece w.toList ∧ Uncommented w.toList := by
    obtain ⟨side, rfl⟩ := Sides.mem_of_mem_collapse hw
    rw [get_trimmedValues]
    exact ⟨hpiece side, huncommented side⟩
  have hagain := split_pieces (fun w hw => (hsides hw).1) fun w hw => (hsides hw).2
  refine longhands_eq_declared hn ?_
  rw [hvalue, hagain, Sides.ofList?_collapse]

/-- Blanks of any kind stand around the colors and inside of their brackets and strings. -/
def colors : Side → Declaration
  | .top => ⟨"border-top-color", " red", true⟩
  | .right => ⟨"border-right-color", "rgb(0, 0, 0)", true⟩
  | .bottom => ⟨"border-bottom-color", "\"a b\"\u3000", true⟩
  | .left => ⟨"border-left-color", "\u00a0RGB(0,\u00a00, 0) ", true⟩

theorem expand_joined_iff_colors :
    Shorthand.mk (.sides "border-color" .within) .reject ∈ Shorthand.builtIn .reject ∧
      (∀ side, find .reject (LonghandNaming.longhand .within "border-color" side)
        ([Side.left, .top, .bottom, .right].map colors) =
        .ok (some (colors side))) ∧
      (∀ side, (colors side).trimmedValue ≠ "" ∧
        Whole (colors side).trimmedValue.toList) ∧
      Shorthand.collapse ⟨.sides "border-color" .within, .reject⟩
        ([Side.left, .top, .bottom, .right].map colors) =
        .ok ⟨"border-color", "red rgb(0, 0, 0) \"a b\" RGB(0,\u00a00, 0)", true⟩ ∧
      Shorthand.expand ⟨.sides "border-color" .within, .reject⟩
          ⟨"border-color", "red rgb(0, 0, 0) \"a b\" RGB(0,\u00a00, 0)", true⟩ =
        .ok [⟨"border-top-color", "red", true⟩, ⟨"border-right-color", "rgb(0, 0, 0)", true⟩,
          ⟨"border-bottom-color", "\"a b\"", true⟩,
          ⟨"border-left-color", "RGB(0,\u00a00, 0)", true⟩] := by
  have hs : Shorthand.mk (.sides "border-color" .within) .reject ∈ Shorthand.builtIn .reject := by
    decide
  have hfound (side : Side) : find .reject (LonghandNaming.longhand .within "border-color" side)
      ([Side.left, .top, .bottom, .right].map colors) = .ok (some (colors side)) := by
    cases side <;> decide +kernel
  have hwhole (side : Side) : (colors side).trimmedValue ≠ "" ∧
      Whole (colors side).trimmedValue.toList := by
    cases side <;> decide +kernel
  have hcollapse : Shorthand.collapse ⟨.sides "border-color" .within, .reject⟩
        ([Side.left, .top, .bottom, .right].map colors) =
      .ok ⟨"border-color", "red rgb(0, 0, 0) \"a b\" RGB(0,\u00a00, 0)", true⟩ := by decide +kernel
  have hsole (side : Side) : (split (colors side).trimmedValue).length = 1 := by
    cases side <;> decide +kernel
  obtain ⟨-, hiff⟩ := expand_joined_iff hs hfound hwhole hcollapse
  refine ⟨hs, hfound, hwhole, hcollapse, (hiff.mpr hsole).trans ?_⟩
  decide +kernel

/-- Four sides of two components each collapse to what stands for two sides of one. -/
theorem not_expand_joined_twoComponents :
    let found (side : Side) : Declaration := ⟨"margin-" ++ side.name, "1px 2px", false⟩
    (∀ side ∈ Side.all, find .first (LonghandNaming.longhand .behind "margin" side)
        (Side.all.map found) = .ok (some (found side))) ∧
      Whole "1px 2px".toList ∧
      Shorthand.collapse ⟨.sides "margin" .behind, .first⟩ (Side.all.map found) =
        .ok ⟨"margin", "1px 2px", false⟩ ∧
      Shorthand.expand ⟨.sides "margin" .behind, .first⟩ ⟨"margin", "1px 2px", false⟩ ≠
        .ok (Side.all.map found) := by
  decide +kernel

end StyleFold.SidesShorthand
