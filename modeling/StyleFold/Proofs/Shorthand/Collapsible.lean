import StyleFold.Proofs.Shorthand.Background.Collapsed
import StyleFold.Proofs.Shorthand.Sides
import StyleFold.Proofs.Value.Atomic

/-!
The shorthands of the sides, the border and the background collapse whatever they expand. No value is
too odd for that: what is cut out of it for a longhand of a border counts as a single component.
-/
namespace StyleFold
open Declaration

variable {policy : DuplicatePolicy} {d : Declaration} {ls : List Declaration} {important : Bool}

theorem Value.length_split_of_mem {v w : String} (h : w ∈ split v) : (split w).length = 1 := by
  obtain ⟨c, hc, rfl⟩ := List.mem_map.mp h
  rw [split_component hc]
  rfl

theorem Declaration.trim_trimmedValue (d : Declaration) :
    Text.trim d.trimmedValue.toList = d.trimmedValue.toList := by
  rw [trimmedValue, String.toList_ofList, Text.trim_trim]

theorem BorderPart.longhand_injective : Function.Injective BorderPart.longhand := by
  intro part other
  cases part <;> cases other <;> decide

namespace BorderShorthand

variable {component : BorderPart → Option String}

def declared? (component : BorderPart → Option String) (important : Bool) (part : BorderPart) :
    Option Declaration :=
  (component part).map fun value => ⟨part.longhand, value, important⟩

def declaredParts (component : BorderPart → Option String) (important : Bool) : List Declaration :=
  BorderPart.all.filterMap (declared? component important)

theorem longhands_eq_declaredParts (value : String) (important : Bool) :
    (longhands value).map (fun l => l.withPriority important) =
      declaredParts (component? (Value.split value)) important := by
  have hlowercase (part : BorderPart) : lowercase part.longhand = part.longhand := by
    cases part <;> decide
  rw [longhands, declaredParts, List.map_filterMap]
  congr 1
  funext part
  simp only [declared?, Option.map_map, Function.comp_def, Declaration.of, withPriority, hlowercase]

theorem property_of_declared? {part : BorderPart} (h : declared? component important part = some d) :
    d.property = part.longhand := by
  obtain ⟨value, -, rfl⟩ := Option.map_eq_some_iff.mp h
  rfl

theorem mem_declaredParts : d ∈ declaredParts component important ↔
    ∃ part, declared? component important part = some d := by
  have hall (part : BorderPart) : part ∈ BorderPart.all := by cases part <;> decide
  rw [declaredParts, List.mem_filterMap]
  exact exists_congr fun part => and_iff_right (hall part)

theorem nodup_declaredParts (component : BorderPart → Option String) (important : Bool) :
    ((declaredParts component important).map Declaration.property).Nodup := by
  rw [declaredParts, List.map_filterMap]
  refine List.Nodup.filterMap (fun part other name hpart hother => ?_) (by decide)
  obtain ⟨d, hd, rfl⟩ := Option.map_eq_some_iff.mp hpart
  obtain ⟨e, he, hname⟩ := Option.map_eq_some_iff.mp hother
  rw [property_of_declared? hd, property_of_declared? he] at hname
  exact (BorderPart.longhand_injective hname).symm

theorem find_declaredParts (part : BorderPart) :
    find policy part.longhand (declaredParts component important) =
      .ok (declared? component important part) := by
  cases hpart : declared? component important part with
  | some d =>
    rw [← property_of_declared? hpart]
    exact find_of_mem (nodup_declaredParts component important) (mem_declaredParts.mpr ⟨part, hpart⟩)
  | none =>
    refine find_of_not_mem fun hmem => ?_
    obtain ⟨d, hd, hname⟩ := List.mem_map.mp hmem
    obtain ⟨other, hother⟩ := mem_declaredParts.mp hd
    rw [property_of_declared? hother] at hname
    rw [BorderPart.longhand_injective hname, hpart] at hother
    contradiction

theorem selected_declaredParts
    (h : ∀ part, ∀ value ∈ component part, (Value.split value).length = 1)
    (parts : List BorderPart) :
    selected policy (declaredParts component important) parts =
      .ok (parts.filterMap (declared? component important)) := by
  induction parts with
  | nil => rfl
  | cons part parts ih =>
    rw [selected, find_declaredParts, ih, List.filterMap_cons]
    cases hpart : component part with
    | none => simp [declared?, hpart, bind, Except.bind]
    | some value =>
      simp [declared?, hpart, bind, Except.bind, h part value hpart]

theorem exists_collapse {v : String} (hne : longhands v ≠ []) :
    ∃ value, collapse policy ((longhands v).map fun l => l.withPriority important) =
      .ok ⟨property, value, important⟩ := by
  have hdeclared := longhands_eq_declaredParts v important
  generalize hlonghands : (longhands v).map (fun l => l.withPriority important) = ls at hdeclared ⊢
  have hne : ls ≠ [] := by rwa [← hlonghands, ne_eq, List.map_eq_nil_iff]
  have hselected : selected policy ls BorderPart.all = .ok ls := by
    rw [hdeclared]
    exact selected_declaredParts (fun part value hvalue =>
      Value.length_split_of_mem (List.mem_of_find?_eq_some hvalue)) BorderPart.all
  have hpriority : sharedPriority property ls = .ok important := by
    refine sharedPriority_eq_ok (fun d hd => ?_) hne property
    rw [← hlonghands] at hd
    obtain ⟨l, -, rfl⟩ := List.mem_map.mp hd
    rfl
  have hlowercase : lowercase property = property := by decide
  rw [collapse, hselected]
  obtain ⟨d, ds, rfl⟩ := List.exists_cons_of_ne_nil hne
  refine ⟨Text.spaced ((d :: ds).map trimmedValue), ?_⟩
  simp only [bind, Except.bind, hpriority, Declaration.of, hlowercase, withPriority]

end BorderShorthand

namespace SidesShorthand

variable {name : String} {naming : LonghandNaming}

theorem exists_collapse (hn : Names name naming) {v : String} (hne : longhands name naming v ≠ []) :
    ∃ value, collapse policy name naming
        ((longhands name naming v).map fun l => l.withPriority important) =
      .ok ⟨name, value, important⟩ := by
  cases hsides : Sides.ofList? (Value.split v) with
  | none =>
    rw [longhands, hsides] at hne
    contradiction
  | some sides =>
    rw [longhands_eq_declared hn hsides]
    exact ⟨_, collapse_eq_joined hn⟩

end SidesShorthand

namespace BackgroundShorthand

theorem find_map {found : BackgroundSlot → Declaration}
    (hname : ∀ slot, (found slot).property = slot.longhand) (slot : BackgroundSlot) :
    find policy slot.longhand (BackgroundSlot.all.map found) = .ok (some (found slot)) := by
  have hall : slot ∈ BackgroundSlot.all := by cases slot <;> decide
  have hlonghands : (BackgroundSlot.all.map found).map Declaration.property =
      BackgroundSlot.all.map BackgroundSlot.longhand := by
    rw [List.map_map]
    exact List.map_congr_left fun slot _ => hname slot
  rw [← hname slot]
  refine find_of_mem ?_ (List.mem_map_of_mem hall)
  rw [hlonghands]
  decide

theorem exists_collapse (v : String) (important : Bool) :
    ∃ value, collapse policy ((longhands v).map fun l => l.withPriority important) =
      .ok ⟨property, value, important⟩ := by
  let found (slot : BackgroundSlot) : Declaration :=
    ⟨slot.longhand, orInitial (slotText? v.toList (masked v.toList) slot), important⟩
  have hlonghands : (longhands v).map (fun l => l.withPriority important) =
      BackgroundSlot.all.map found := by
    have hexpand := Shorthand.expand_eq_ok (s := ⟨.background, policy⟩)
      (d := ⟨"background", v, important⟩) rfl
    exact Except.ok.inj (hexpand.symm.trans (expand_eq policy v important))
  have hshared : sharedPriority property
      ((BackgroundSlot.all.map fun slot => (slot, found slot)).map Prod.snd) = .ok important := by
    refine sharedPriority_eq_ok (fun d hd => ?_) (by simp [BackgroundSlot.all]) property
    rw [List.map_map] at hd
    obtain ⟨slot, -, rfl⟩ := List.mem_map.mp hd
    rfl
  have hlowercase : lowercase property = property := by decide
  rw [hlonghands, collapse, selected_eq_ok (find_map fun _ => rfl)]
  refine ⟨valueOf (parts (given? (BackgroundSlot.all.map fun slot => (slot, found slot)))), ?_⟩
  simp only [bind, Except.bind, hshared, Declaration.of, hlowercase, withPriority]
  cases parts (given? (BackgroundSlot.all.map fun slot => (slot, found slot))) <;> rfl

end BackgroundShorthand

namespace Shorthand

variable {s : Shorthand}

/-- Whatever the value of a shorthand of the sides, a border or a background is, its longhands, where
it has any, collapse to the same shorthand of the same priority. -/
theorem exists_collapse_of_expand (hs : s ∈ builtIn policy) (hfont : s.family ≠ .font)
    (hexpand : s.expand d = .ok ls) (hne : ls ≠ []) :
    ∃ value, s.collapse ls = .ok ⟨d.property, value, d.important⟩ := by
  have hd := property_of_expand hexpand
  rw [expand_eq_ok hd] at hexpand
  obtain rfl := Except.ok.inj hexpand
  rw [ne_eq, List.map_eq_nil_iff] at hne
  rw [hd]
  obtain ⟨family, duplicates⟩ := s
  cases family with
  | sides property naming =>
    obtain rfl : duplicates = policy := duplicates_of_mem hs
    exact SidesShorthand.exists_collapse (SidesShorthand.names_of_mem hs) hne
  | border => exact BorderShorthand.exists_collapse hne
  | background => exact BackgroundShorthand.exists_collapse d.value d.important
  | font => exact absurd rfl hfont

/-- Where the newline behind it is cut off, the backslash becomes an escape. -/
theorem exists_collapse_of_expand_backslash :
    Shorthand.mk .border .reject ∈ builtIn .reject ∧
      expand ⟨.border, .reject⟩ ⟨"border", "/*a*/1px/*b*/ \\\n solid", true⟩ =
        .ok [⟨"border-width", "/*a*/1px", true⟩, ⟨"border-style", "solid", true⟩,
          ⟨"border-color", "\\", true⟩] ∧
      ∃ value, collapse ⟨.border, .reject⟩ [⟨"border-width", "/*a*/1px", true⟩,
        ⟨"border-style", "solid", true⟩, ⟨"border-color", "\\", true⟩] =
          .ok ⟨"border", value, true⟩ := by
  have hs : Shorthand.mk .border .reject ∈ builtIn .reject := by decide
  have hexpand : expand ⟨.border, .reject⟩ ⟨"border", "/*a*/1px/*b*/ \\\n solid", true⟩ =
      .ok [⟨"border-width", "/*a*/1px", true⟩, ⟨"border-style", "solid", true⟩,
        ⟨"border-color", "\\", true⟩] := by decide +kernel
  exact ⟨hs, hexpand, exists_collapse_of_expand hs (by decide) hexpand (by simp)⟩

end Shorthand
end StyleFold
