import StyleFold.Proofs.Reader.CleanValue
import StyleFold.Proofs.Shorthand.Background
import StyleFold.Proofs.Shorthand.Font
import StyleFold.Proofs.Shorthand.Sides

/-!
The longhands that a clean text expands to, printed and read again. They are read as they were for
every shorthand but the background, and for a background just if its image and its color keep to
themselves.
-/
namespace StyleFold
open Text Lexeme Value Declaration Reader.Strict

variable {policy : DuplicatePolicy} {c : Converter} {s : Shorthand} {d : Declaration}
  {ds ls : List Declaration} {v t : String}

namespace Declaration

structure Legible (d : Declaration) : Prop where
  named : isNamed d.property.toList = true
  trimmed : Trimmed d.value.toList

/-- The longhands of the background whose texts no pattern of theirs keeps within bounds. -/
def Unbounded (d : Declaration) : Prop :=
  d.property = BackgroundSlot.image.longhand ∨ d.property = BackgroundSlot.color.longhand

end Declaration

theorem kept_of_mem_split {name w : String} (hname : isNamed name.toList = true)
    (h : Clean v.toList) (hfree : isFree isMark [] (lex v.toList) = true) (hw : w ∈ split v) :
    (Declaration.of name w).Legible ∧ Contained (Declaration.of name w).value.toList := by
  obtain ⟨p, hp, rfl⟩ := List.mem_map.mp hw
  have hcomponent := component_of_mem h hp
  have hlower : isNamed (lowercase name).toList = true := by
    rwa [lowercase, (isNamed_cases hname).2, String.ofList_toList]
  change (Declaration.mk (lowercase name) (String.ofList p) false).Legible ∧
    Contained (String.ofList p).toList
  refine ⟨⟨hlower, ?_⟩, ?_⟩ <;> rw [String.toList_ofList]
  · exact hcomponent.trimmed
  · exact hcomponent.contained (isFree_isMark_of_mem h hp hfree)

theorem SidesShorthand.kept_of_mem_longhands {property : String} {naming : LonghandNaming}
    (hn : Names property naming) (h : Clean v.toList)
    (hfree : isFree isMark [] (lex v.toList) = true) (hd : d ∈ longhands property naming v) :
    d.Legible ∧ Contained d.value.toList := by
  rw [SidesShorthand.longhands] at hd
  split at hd
  · cases hd
  · rename_i sides hsides
    obtain ⟨side, -, rfl⟩ := List.mem_map.mp hd
    exact kept_of_mem_split (Reader.isNamed_of_isLettered (hn.longhand side)) h hfree
      (Sides.get_mem hsides side)

theorem BorderShorthand.kept_of_mem_longhands (h : Clean v.toList)
    (hfree : isFree isMark [] (lex v.toList) = true) (hd : d ∈ longhands v) :
    d.Legible ∧ Contained d.value.toList := by
  obtain ⟨part, -, hpart⟩ := List.mem_filterMap.mp hd
  obtain ⟨w, hw, rfl⟩ := Option.map_eq_some_iff.mp hpart
  exact kept_of_mem_split (by cases part <;> decide) h hfree (List.mem_of_find?_eq_some hw)

theorem BackgroundShorthand.kept_of_mem_longhands (h : '\\' ∉ v.toList) (hd : d ∈ longhands v) :
    d.Legible ∧ (Contained d.value.toList ∨ d.Unbounded) := by
  obtain ⟨hnamed, htrimmed⟩ := trimmed_of_mem_longhands h hd
  refine ⟨⟨hnamed, htrimmed⟩, ?_⟩
  obtain ⟨slot, rfl⟩ := mem_longhands.mp hd
  by_cases himage : slot = .image
  · subst himage
    exact .inr (.inl (by decide : lowercase BackgroundSlot.image.longhand = _))
  by_cases hcolor : slot = .color
  · subst hcolor
    exact .inr (.inr (by decide : lowercase BackgroundSlot.color.longhand = _))
  refine .inl ?_
  change Contained (orInitial _).toList
  cases hw : slotText? v.toList (masked v.toList) slot with
  | none => exact Pattern.tame_initial.contained
  | some w =>
    rw [orInitial, String.toList_ofList]
    exact (kept_of_slotText himage hcolor hw).2

theorem Family.kept_of_mem_longhands (hs : s ∈ Shorthand.builtIn policy) (h : Clean v.toList)
    (htrim : trim v.toList = v.toList) (hfree : isFree isMark [] (lex v.toList) = true)
    (hd : d ∈ s.family.longhands v) :
    d.Legible ∧ (Contained d.value.toList ∨ s.family = .background ∧ d.Unbounded) := by
  obtain ⟨family, duplicates⟩ := s
  cases family with
  | sides property naming =>
    obtain rfl : duplicates = policy := Shorthand.duplicates_of_mem hs
    exact (SidesShorthand.kept_of_mem_longhands (SidesShorthand.names_of_mem hs) h hfree
      hd).imp_right .inl
  | border => exact (BorderShorthand.kept_of_mem_longhands h hfree hd).imp_right .inl
  | background =>
    exact (BackgroundShorthand.kept_of_mem_longhands h.plain hd).imp_right fun hc =>
      hc.imp_right fun hu => ⟨rfl, hu⟩
  | font =>
    have hcontained : Contained v.toList := ⟨h.plain, h.ended, h.closed, hfree⟩
    obtain ⟨hnamed, htrimmed, hc⟩ :=
      FontShorthand.kept_of_mem_longhands h.spaces hcontained htrim hd
    exact ⟨⟨hnamed, htrimmed⟩, .inl hc⟩

theorem trim_of_read (h : Clean t.toList) (hread : Reader.Strict.read t = .ok ds) (hd : d ∈ ds) :
    trim d.value.toList = d.value.toList := by
  obtain ⟨-, i, -, -, hholds, -⟩ := exists_holds_of_mem hread hd h.closed
  obtain ⟨-, ls, important, -, -, hbody⟩ := hholds.exists_body
  rw [← hbody.trimmed, trim_trim]

/-- The longhands of the first declaration of a clean text are printed. The print is read as the same
longhands for every shorthand but the background, and for a background just if the values of its
image and its color keep to themselves. -/
theorem Converter.read_expand_iff (hs : s ∈ Shorthand.builtIn policy)
    (hc : c = ofSettings ⟨.strict, policy⟩) (h : Clean t.toList) (hread : c.read t = .ok (d :: ds))
    (hd : d.property = s.property) (hexpand : c.expandDeclaration d = .ok (some ls)) :
    ∃ l, c.expand t = .ok (some l) ∧ (s.family ≠ .background → c.read l = .ok ls) ∧
      (c.read l = .ok ls ↔ ∀ e ∈ ls, e.Unbounded → Contained e.value.toList) := by
  subst hc
  have hget := get?_ofSettings .strict hs
  obtain rfl : (s.family.longhands d.value).map (fun l => l.withPriority d.important) = ls := by
    rw [expandDeclaration, hd, hget] at hexpand
    dsimp only at hexpand
    rw [Shorthand.expand_eq_ok hd] at hexpand
    exact Option.some.inj (Except.ok.inj hexpand)
  obtain ⟨hclean, hfree⟩ := clean_of_read h hread List.mem_cons_self
  have htrim := trim_of_read h hread List.mem_cons_self
  have hkept : ∀ e ∈ (s.family.longhands d.value).map fun l => l.withPriority d.important,
      e.Legible ∧ (Contained e.value.toList ∨ s.family = .background ∧ e.Unbounded) := by
    intro e he
    obtain ⟨l, hl, rfl⟩ := List.mem_map.mp he
    obtain ⟨⟨hnamed, htrimmed⟩, hcontained⟩ := Family.kept_of_mem_longhands hs hclean htrim hfree hl
    exact ⟨⟨hnamed, htrimmed⟩, hcontained⟩
  have hiff := read_printAll_iff (fun e he => (hkept e he).1.named)
    fun e he => (hkept e he).1.trimmed
  refine ⟨_, expand_eq_ok hread (by rw [hd, hget]) (Shorthand.expand_eq_ok hd), fun hf => ?_, ?_⟩
  · refine hiff.mpr fun e he => ?_
    exact (hkept e he).2.resolve_right fun hu => hf hu.1
  · refine hiff.trans ⟨fun hall e he _ => hall e he, fun hall e he => ?_⟩
    obtain hcontained | ⟨-, hu⟩ := (hkept e he).2
    · exact hcontained
    · exact hall e he hu

theorem Converter.read_expand_iff_font :
    (ofSettings ⟨.strict, .reject⟩).read "font: bold 12px/1.5 \"A; b\", serif !important" =
        .ok [⟨"font", "bold 12px/1.5 \"A; b\", serif", true⟩] ∧
      ∃ l, (ofSettings ⟨.strict, .reject⟩).expand
          "font: bold 12px/1.5 \"A; b\", serif !important" = .ok (some l) ∧
        (ofSettings ⟨.strict, .reject⟩).read l = .ok [⟨"font-style", "initial", true⟩,
          ⟨"font-variant", "initial", true⟩, ⟨"font-weight", "bold", true⟩,
          ⟨"font-size", "12px", true⟩, ⟨"font-height", "1.5", true⟩,
          ⟨"font-family", "\"A; b\", serif", true⟩, ⟨"font-values", "initial", true⟩] := by
  have hs : ⟨.font, .reject⟩ ∈ Shorthand.builtIn .reject := by decide
  have hread : (ofSettings ⟨.strict, .reject⟩).read
      "font: bold 12px/1.5 \"A; b\", serif !important" =
        .ok [⟨"font", "bold 12px/1.5 \"A; b\", serif", true⟩] := by decide
  have hexpand : (ofSettings ⟨.strict, .reject⟩).expandDeclaration
      ⟨"font", "bold 12px/1.5 \"A; b\", serif", true⟩ = .ok (some [⟨"font-style", "initial", true⟩,
          ⟨"font-variant", "initial", true⟩, ⟨"font-weight", "bold", true⟩,
          ⟨"font-size", "12px", true⟩, ⟨"font-height", "1.5", true⟩,
          ⟨"font-family", "\"A; b\", serif", true⟩, ⟨"font-values", "initial", true⟩]) := by
    decide +kernel
  obtain ⟨l, hl, hkept, -⟩ := read_expand_iff hs rfl (by decide) hread rfl hexpand
  exact ⟨hread, l, hl, hkept (by decide)⟩

/-- The pattern of an address ends at the first closing bracket, also where the bracket stands in a
string. The string that it cuts apart then takes in what is printed behind it. -/
theorem Converter.not_read_expand_quoted_bracket :
    Clean "background: url(\"a) b.png\")".toList ∧
      (ofSettings ⟨.strict, .first⟩).read "background: url(\"a) b.png\")" =
        .ok [⟨"background", "url(\"a) b.png\")", false⟩] ∧
      ∃ ls l, (ofSettings ⟨.strict, .first⟩).expandDeclaration
          ⟨"background", "url(\"a) b.png\")", false⟩ = .ok (some ls) ∧
        (ofSettings ⟨.strict, .first⟩).expand "background: url(\"a) b.png\")" = .ok (some l) ∧
        (ofSettings ⟨.strict, .first⟩).read l ≠ .ok ls := by
  let ls : List Declaration := [⟨"background-image", "url(\"a)", false⟩,
    ⟨"background-position", "initial", false⟩, ⟨"background-size", "initial", false⟩,
    ⟨"background-repeat", "initial", false⟩, ⟨"background-attachment", "initial", false⟩,
    ⟨"background-origin", "initial", false⟩, ⟨"background-clip", "initial", false⟩,
    ⟨"background-color", "initial", false⟩]
  have hexpand : (ofSettings ⟨.strict, .first⟩).expandDeclaration
      ⟨"background", "url(\"a) b.png\")", false⟩ = .ok (some ls) := by decide +kernel
  have htext : (ofSettings ⟨.strict, .first⟩).expand "background: url(\"a) b.png\")" =
      .ok (some (printAll ls)) := by decide +kernel
  exact ⟨by decide, by decide, ls, _, hexpand, htext, by decide +kernel⟩

end StyleFold
