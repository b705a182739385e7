import StyleFold.Proofs.Converter
import StyleFold.Proofs.Declaration.Lookup
import StyleFold.Proofs.Reader.Kept
import StyleFold.Proofs.Value.Spaced

/-! The shorthands of the four sides of a box, expanded and collapsed again. -/
namespace StyleFold

theorem Side.mem_all (side : Side) : side ∈ Side.all := by
  cases side <;> decide

namespace Sides

variable {α : Type*} {l : List α} {s : Sides α}

theorem exists_ofList? (h : 1 ≤ l.length) (h' : l.length ≤ 4) : ∃ s, ofList? l = some s := by
  match l, h, h' with
  | [a], _, _ => exact ⟨_, rfl⟩
  | [a, b], _, _ => exact ⟨_, rfl⟩
  | [a, b, c], _, _ => exact ⟨_, rfl⟩
  | [a, b, c, d], _, _ => exact ⟨_, rfl⟩
  | _ :: _ :: _ :: _ :: _ :: _, _, h' =>
    simp only [List.length_cons] at h'
    omega

theorem get_mem (h : ofList? l = some s) (side : Side) : s.get side ∈ l := by
  rw [ofList?.eq_def] at h
  split at h
  case h_5 => cases h
  all_goals
    cases h
    cases side <;> simp [get]

theorem ofList?_collapse [DecidableEq α] (s : Sides α) : ofList? s.collapse = some s := by
  obtain ⟨top, right, bottom, left⟩ := s
  by_cases h : top = bottom ∧ right = left
  · obtain ⟨rfl, rfl⟩ := h
    by_cases h : top = right
    · subst h
      simp [collapse, ofList?]
    · simp [collapse, ofList?, h]
  · simp [collapse, ofList?, toList, h]

theorem mem_of_mem_collapse [DecidableEq α] {x : α} (h : x ∈ s.collapse) :
    ∃ side, x = s.get side := by
  have hlist : ∀ x ∈ s.toList, ∃ side, x = s.get side := by
    simp only [toList, List.forall_mem_cons, List.not_mem_nil, false_implies, implies_true,
      and_true]
    exact ⟨⟨.top, rfl⟩, ⟨.right, rfl⟩, ⟨.bottom, rfl⟩, ⟨.left, rfl⟩⟩
  rw [collapse] at h
  split at h
  · refine hlist x ?_
    split at h <;> simp_all [toList]
  · exact hlist x h

end Sides

namespace SidesShorthand
open Declaration Text Value Lexeme Reader

variable {reader : Reader} {policy : DuplicatePolicy} {property : String} {naming : LonghandNaming}
  {sides : Sides String} {important : Bool} {d : Declaration} {ds : List Declaration}

def declared (property : String) (naming : LonghandNaming) (sides : Sides String)
    (important : Bool) (side : Side) : Declaration :=
  ⟨naming.longhand property side, sides.get side, important⟩

structure Names (property : String) (naming : LonghandNaming) : Prop where
  shorthand : isLettered property.toList = true
  longhand : ∀ side, isLettered (naming.longhand property side).toList = true
  nodup : (Side.all.map (naming.longhand property)).Nodup

theorem names_of_mem (h : ⟨.sides property naming, policy⟩ ∈ Shorthand.builtIn policy) :
    Names property naming := by
  obtain ⟨rfl, rfl⟩ | ⟨rfl, rfl⟩ | ⟨rfl, rfl⟩ | ⟨rfl, rfl⟩ | ⟨rfl, rfl⟩ :
      property = "margin" ∧ naming = .behind ∨ property = "padding" ∧ naming = .behind ∨
        property = "border-width" ∧ naming = .within ∨
        property = "border-style" ∧ naming = .within ∨
        property = "border-color" ∧ naming = .within := by
    simpa [Shorthand.builtIn] using h
  all_goals exact ⟨by decide, fun side => by cases side <;> decide +kernel, by decide +kernel⟩

theorem longhands_eq_declared (hn : Names property naming) {value : String}
    (h : Sides.ofList? (split value) = some sides) :
    (longhands property naming value).map (fun l => l.withPriority important) =
      Side.all.map (declared property naming sides important) := by
  rw [longhands, h, List.map_map]
  refine List.map_congr_left fun side _ => ?_
  simp only [Function.comp_apply, Declaration.of, withPriority, declared,
    lowercase_of_isLettered (hn.longhand side)]

theorem selected_eq_ok {found : Side → Declaration}
    (h : ∀ side, find policy (naming.longhand property side) ds = .ok (some (found side)))
    (l : List Side) : selected policy property naming ds l = .ok (l.map found) := by
  induction l with
  | nil => rfl
  | cons side l ih =>
    rw [selected, require, h, ih]
    rfl

theorem collapse_eq_joined (hn : Names property naming) :
    collapse policy property naming (Side.all.map (declared property naming sides important)) =
      .ok ⟨property, joined (Side.all.map (declared property naming sides important)),
        important⟩ := by
  have hnodup : ((Side.all.map (declared property naming sides important)).map
      Declaration.property).Nodup := by
    rw [List.map_map]
    exact hn.nodup
  have hfind (side : Side) : find policy (naming.longhand property side)
      (Side.all.map (declared property naming sides important)) =
        .ok (some (declared property naming sides important side)) :=
    find_of_mem hnodup (List.mem_map_of_mem (Side.mem_all side))
  have hpriority : sharedPriority property (Side.all.map (declared property naming sides
      important)) = .ok important := by
    refine sharedPriority_eq_ok (fun d hd => ?_) (by simp [Side.all]) property
    obtain ⟨side, -, rfl⟩ := List.mem_map.mp hd
    rfl
  rw [collapse, if_pos (by simp [Side.all]), selected_eq_ok hfind]
  simp only [bind, Except.bind, hpriority, Declaration.of, withPriority,
    lowercase_of_isLettered hn.shorthand]

theorem collapse_declared (hn : Names property naming)
    (ht : ∀ side, trim (sides.get side).toList = (sides.get side).toList) :
    collapse policy property naming (Side.all.map (declared property naming sides important)) =
      .ok ⟨property, spaced sides.collapse, important⟩ := by
  have hvalues : (Side.all.map (declared property naming sides important)).map trimmedValue =
      sides.toList := by
    rw [List.map_map]
    refine (List.map_congr_left fun side _ => ?_ : _ = Side.all.map sides.get).trans rfl
    rw [Function.comp_apply, trimmedValue, declared, ht, String.ofList_toList]
  rw [collapse_eq_joined hn, joined, hvalues]
  rfl

/-- Components of a value that holds neither exclamation marks nor, for the strict reader, semicolons
outside its strings, addresses and brackets make up a value that the reader keeps. -/
theorem keeps_spaced {v : List Char} {ss : List String} (h : Clean v) (hbang : '!' ∉ v)
    (hstrict : reader = .strict → isFree Strict.isSemicolon [] (lex v) = true)
    (hlenient : reader = .lenient → ';' ∉ v) (hss : ∀ s ∈ ss, s.toList ∈ components v) :
    reader.Keeps (spaced ss).toList := by
  cases reader with
  | strict =>
    have hmark := Strict.isFree_isMark h.plain hbang (hstrict rfl)
    exact contained_spaced (fun s hs => component_of_mem h (hss s hs))
      fun s hs => isFree_isMark_of_mem h (hss s hs) hmark
  | lenient =>
    have hmem {d : Char} (hd : d ∈ (spaced ss).toList) : d = ' ' ∨ d ∈ v := by
      obtain rfl | ⟨s, hs, hd⟩ := mem_spaced hd
      · exact .inl rfl
      · exact .inr (subset_of_mem h (hss s hs) hd)
    refine ⟨fun hd => ?_, unmarked_of_not_mem fun hd => ?_⟩
    · obtain hd | hd := hmem hd
      · contradiction
      · exact hlenient rfl hd
    · obtain hd | hd := hmem hd
      · contradiction
      · exact hbang hd

theorem collapse_ne_nil (s : Sides String) : s.collapse ≠ [] := by
  intro h
  have := Sides.ofList?_collapse s
  rw [h] at this
  cases this

theorem convert_declared {t : String} {c : Converter} (hn : Names property naming)
    (hget : c.registry.get? property = some ⟨.sides property naming, policy⟩)
    (hsides : Sides.ofList? (split d.value) = some sides)
    (hagain : split (spaced sides.collapse) = sides.collapse)
    (ht : ∀ side, trim (sides.get side).toList = (sides.get side).toList)
    (hd : d.property = property) (hread : c.read t = .ok (d :: ds))
    (hlonghands : c.read (printAll (Side.all.map (declared property naming sides d.important))) =
      .ok (Side.all.map (declared property naming sides d.important)))
    (hshorthand : c.read (printAll [⟨property, spaced sides.collapse, d.important⟩]) =
      .ok [⟨property, spaced sides.collapse, d.important⟩]) :
    ∃ l s longhands shorthand, c.expand t = .ok (some l) ∧ c.collapse property l = .ok (some s) ∧
      c.expand s = .ok (some l) ∧ c.read l = .ok longhands ∧ c.read s = .ok [shorthand] ∧
        ∀ e ∈ shorthand :: longhands, e.important = d.important := by
  have hexpand {e : Declaration} (he : e.property = property)
      (hsplit : Sides.ofList? (split e.value) = some sides) (hi : e.important = d.important) :
      (⟨.sides property naming, policy⟩ : Shorthand).expand e =
        .ok (Side.all.map (declared property naming sides d.important)) := by
    rw [Shorthand.expand_eq_ok he, hi]
    exact congrArg Except.ok (longhands_eq_declared hn hsplit)
  refine ⟨_, _, _, _, ?_, ?_, ?_, hlonghands, hshorthand, ?_⟩
  · exact Converter.expand_eq_ok hread (by rw [hd, hget]) (hexpand hd hsides rfl)
  · exact Converter.collapse_eq_ok hlonghands hget (collapse_declared hn ht)
  · exact Converter.expand_eq_ok hshorthand hget
      (hexpand rfl (by rw [hagain, Sides.ofList?_collapse]) rfl)
  · refine List.forall_mem_cons.mpr ⟨rfl, fun e he => ?_⟩
    obtain ⟨side, -, rfl⟩ := List.mem_map.mp he
    rfl

/-- The longhands of a text collapse to a shorthand that expands to the same longhands, all with the
priority of the declaration that the text begins with. -/
theorem expand_collapse_expand {t : String} {c : Converter}
    (hs : ⟨.sides property naming, policy⟩ ∈ Shorthand.builtIn policy)
    (hc : c = Converter.ofSettings ⟨reader, policy⟩) (hread : c.read t = .ok (d :: ds))
    (hd : d.property = property) (hpos : 1 ≤ (split d.value).length)
    (hle : (split d.value).length ≤ 4) (hclean : Clean d.value.toList)
    (hbang : '!' ∉ d.value.toList) (hcomment : ¬['/', '*'] <:+: d.value.toList)
    (hsemi : reader = .strict → isFree Strict.isSemicolon [] (lex d.value.toList) = true) :
    ∃ l s longhands shorthand, c.expand t = .ok (some l) ∧ c.collapse property l = .ok (some s) ∧
      c.expand s = .ok (some l) ∧ c.read l = .ok longhands ∧ c.read s = .ok [shorthand] ∧
        ∀ e ∈ shorthand :: longhands, e.important = d.important := by
  have hn := names_of_mem hs
  have hget := Converter.get?_ofSettings reader hs
  rw [← hc] at hget
  have hreader (u : String) : c.read u = reader.read u := by rw [hc]; rfl
  obtain ⟨sides, hsides⟩ := Sides.exists_ofList? hpos hle
  have hmem (side : Side) : (sides.get side).toList ∈ components d.value.toList := by
    obtain ⟨w, hw, hside⟩ := List.mem_map.mp (Sides.get_mem hsides side)
    rwa [← hside, String.toList_ofList]
  have hcollapsed : ∀ w ∈ sides.collapse, w.toList ∈ components d.value.toList := by
    intro w hw
    obtain ⟨side, rfl⟩ := Sides.mem_of_mem_collapse hw
    exact hmem side
  have hcomponent {w : String} (hw : w.toList ∈ components d.value.toList) :=
    component_of_mem hclean hw
  have hkeeps {ws : List String} (hws : ∀ w ∈ ws, w.toList ∈ components d.value.toList) :
      reader.Keeps (spaced ws).toList := by
    refine keeps_spaced hclean hbang hsemi (fun hr => ?_) hws
    subst hr
    exact not_mem_of_read_lenient ((hreader t).symm.trans hread) d List.mem_cons_self
  refine convert_declared hn hget hsides ?_ (fun side => (hcomponent (hmem side)).trim_eq) hd
    hread ?_ ?_
  · exact split_spaced (fun w hw => hcomponent (hcollapsed w hw))
      fun w hw => uncommented_of_mem hclean (hcollapsed w hw) hcomment
  · rw [hreader]
    refine read_printAll fun l hl => ?_
    obtain ⟨side, -, rfl⟩ := List.mem_map.mp hl
    exact ⟨hn.longhand side, (hcomponent (hmem side)).filled, (hcomponent (hmem side)).trim_eq,
      hkeeps (List.forall_mem_singleton.mpr (hmem side))⟩
  · rw [hreader]
    have hall := fun w hw => hcomponent (hcollapsed w hw)
    exact read_printAll (List.forall_mem_singleton.mpr ⟨hn.shorthand,
      spaced_ne_nil hall (collapse_ne_nil sides), trim_spaced hall, hkeeps hcollapsed⟩)

theorem expand_collapse_expand_margin :
    (Converter.ofSettings ⟨.strict, .last⟩).read "margin: calc(1px + 2%) \"a b\" !important" =
        .ok [⟨"margin", "calc(1px + 2%) \"a b\"", true⟩] ∧
      ∃ l s longhands shorthand, (Converter.ofSettings ⟨.strict, .last⟩).expand
          "margin: calc(1px + 2%) \"a b\" !important" = .ok (some l) ∧
        (Converter.ofSettings ⟨.strict, .last⟩).collapse "margin" l = .ok (some s) ∧
        (Converter.ofSettings ⟨.strict, .last⟩).expand s = .ok (some l) ∧
        (Converter.ofSettings ⟨.strict, .last⟩).read l = .ok longhands ∧
        (Converter.ofSettings ⟨.strict, .last⟩).read s = .ok [shorthand] ∧
          ∀ e ∈ shorthand :: longhands, e.important = true := by
  have hread : (Converter.ofSettings ⟨.strict, .last⟩).read
      "margin: calc(1px + 2%) \"a b\" !important" =
        .ok [⟨"margin", "calc(1px + 2%) \"a b\"", true⟩] := by decide
  have hs : ⟨.sides "margin" .behind, .last⟩ ∈ Shorthand.builtIn .last := by decide
  exact ⟨hread, expand_collapse_expand hs rfl hread rfl (by decide) (by decide) (by decide)
    (by decide) (by decide) fun _ => by decide⟩

/-- A no-break space keeps `url` from being read as an address, and is trimmed away. The semicolon in
the value then ends it where it is printed. -/
theorem not_expand_collapse_semicolon :
    (Converter.ofSettings ⟨.strict, .first⟩).read "margin:\u00a0url([);])" =
        .ok [⟨"margin", "url([);])", false⟩] ∧
      (split "url([);])").length = 1 ∧ Clean "url([);])".toList ∧ '!' ∉ "url([);])".toList ∧
      ¬['/', '*'] <:+: "url([);])".toList ∧
      ∃ l, (Converter.ofSettings ⟨.strict, .first⟩).expand "margin:\u00a0url([);])" =
          .ok (some l) ∧
        ∀ s, (Converter.ofSettings ⟨.strict, .first⟩).collapse "margin" l ≠ .ok (some s) := by
  let longhands : List Declaration :=
    [⟨"margin-top", "url([);])", false⟩, ⟨"margin-right", "url([);])", false⟩,
      ⟨"margin-bottom", "url([);])", false⟩, ⟨"margin-left", "url([);])", false⟩]
  have hexpand : (Converter.ofSettings ⟨.strict, .first⟩).expand "margin:\u00a0url([);])" =
      .ok (some (printAll longhands)) := by decide
  have hcollapse : (Converter.ofSettings ⟨.strict, .first⟩).collapse "margin" (printAll longhands) =
      .error (.malformed (.unexpected (.closing .square)) "]);" ⟨1, 20⟩) := by decide
  refine ⟨by decide, by decide, by decide, by decide, by decide, _, hexpand, fun s h => ?_⟩
  rw [hcollapse] at h
  cases h

end SidesShorthand
end StyleFold
