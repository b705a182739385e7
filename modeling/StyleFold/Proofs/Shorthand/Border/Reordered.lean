import StyleFold.Proofs.Shorthand.Border
import StyleFold.Proofs.Value.Spread

/-!
The components of a border in any order. Where no two of them are taken as the same part, every part
finds the component of its own wherever that stands.
-/
namespace StyleFold.BorderShorthand
open Declaration Value

variable {important : Bool} {part : BorderPart} {c : String} {ts us : List String}

theorem component?_eq_some_iff (h : (ts.filterMap BorderPart.ofComponent?).Nodup) :
    component? ts part = some c ↔ c ∈ ts ∧ BorderPart.ofComponent? c = some part := by
  induction ts with
  | nil => simp [component?]
  | cons t ts ih =>
    have hts : (ts.filterMap BorderPart.ofComponent?).Nodup :=
      h.sublist ((List.sublist_cons_self t ts).filterMap _)
    by_cases ht : BorderPart.ofComponent? t = some part
    · have hself : component? (t :: ts) part = some t := List.find?_cons_of_pos (by simpa using ht)
      rw [List.filterMap_cons_some ht, List.nodup_cons] at h
      rw [hself, Option.some.injEq]
      constructor
      · rintro rfl
        exact ⟨List.mem_cons_self, ht⟩
      · rintro ⟨hc, hpart⟩
        obtain rfl | hc := List.mem_cons.mp hc
        · rfl
        · exact absurd (List.mem_filterMap.mpr ⟨c, hc, hpart⟩) h.1
    · have hskip : component? (t :: ts) part = component? ts part :=
        List.find?_cons_of_neg (by simpa using ht)
      rw [hskip, ih hts, List.mem_cons]
      refine ⟨fun ⟨hc, hpart⟩ => ⟨.inr hc, hpart⟩, fun ⟨hc, hpart⟩ => ⟨hc.resolve_left ?_, hpart⟩⟩
      rintro rfl
      exact ht hpart

theorem component?_perm (h : (ts.filterMap BorderPart.ofComponent?).Nodup) (hperm : us.Perm ts)
    (part : BorderPart) : component? us part = component? ts part := by
  have hus : (us.filterMap BorderPart.ofComponent?).Nodup :=
    (hperm.filterMap BorderPart.ofComponent?).nodup_iff.mpr h
  refine Option.ext fun c => ?_
  rw [component?_eq_some_iff hus, component?_eq_some_iff h, hperm.mem_iff]

theorem declaredParts_sublist (component : BorderPart → Option String) (important : Bool)
    (parts : List BorderPart) :
    ((parts.filterMap (declared? component important)).map Declaration.property).Sublist
      (parts.map BorderPart.longhand) := by
  induction parts with
  | nil => exact .slnil
  | cons part parts ih =>
    cases hpart : declared? component important part with
    | none =>
      rw [List.filterMap_cons_none hpart]
      exact ih.cons _
    | some d =>
      rw [List.filterMap_cons_some hpart, List.map_cons, property_of_declared? hpart]
      exact ih.cons_cons _

def declaration? (important : Bool) (t : String) : Option Declaration :=
  (BorderPart.ofComponent? t).map fun part => ⟨part.longhand, t, important⟩

theorem nodup_declarations (h : (ts.filterMap BorderPart.ofComponent?).Nodup) :
    (ts.filterMap (declaration? important)).Nodup := by
  refine List.Nodup.of_map Declaration.property ?_
  have hnames : (ts.filterMap (declaration? important)).map Declaration.property =
      (ts.filterMap BorderPart.ofComponent?).map BorderPart.longhand := by
    rw [List.map_filterMap, List.map_filterMap]
    congr 1
    funext t
    simp only [declaration?, Option.map_map, Function.comp_def]
  rw [hnames]
  exact h.map BorderPart.longhand_injective

/-- Every component that is taken as a part is declared for it, and nothing else is. -/
theorem declaredParts_perm (h : (ts.filterMap BorderPart.ofComponent?).Nodup) (important : Bool) :
    (declaredParts (component? ts) important).Perm (ts.filterMap (declaration? important)) := by
  have hnodup := (nodup_declaredParts (component? ts) important).of_map
  refine (List.perm_ext_iff_of_nodup hnodup (nodup_declarations h)).mpr fun d => ?_
  rw [mem_declaredParts, List.mem_filterMap]
  simp only [declared?, declaration?, Option.map_eq_some_iff, component?_eq_some_iff h]
  constructor
  · rintro ⟨part, c, ⟨hc, hpart⟩, rfl⟩
    exact ⟨c, hc, part, hpart, rfl⟩
  · rintro ⟨c, hc, part, hpart, rfl⟩
    exact ⟨part, c, ⟨hc, hpart⟩, rfl⟩

/-- Components that are taken as different parts, or as none, may stand in any order and with any
whitespace around them: each one that is taken as a part is declared for it, in the order of the
parts. -/
theorem expand_reordered (policy : DuplicatePolicy) (important : Bool) {v w : String}
    (hts : ∀ t ∈ ts, split t = [t] ∧ Whole t.toList)
    (hparts : (ts.filterMap BorderPart.ofComponent?).Nodup) (hperm : us.Perm ts)
    (hv : Spread ts v.toList) (hw : Spread us w.toList) :
    ∃ ls, Shorthand.expand ⟨.border, policy⟩ ⟨"border", v, important⟩ = .ok ls ∧
      Shorthand.expand ⟨.border, policy⟩ ⟨"border", w, important⟩ = .ok ls ∧
      ls.Perm (ts.filterMap (declaration? important)) ∧
      (ls.map Declaration.property).Sublist (BorderPart.all.map BorderPart.longhand) := by
  have hus : ∀ t ∈ us, split t = [t] ∧ Whole t.toList := fun t ht => hts t (hperm.mem_iff.mp ht)
  refine ⟨declaredParts (component? ts) important, ?_, ?_, declaredParts_perm hparts important,
    declaredParts_sublist _ _ _⟩
  · rw [Shorthand.expand_eq_ok rfl, Family.longhands, longhands_eq_declaredParts,
      split_spread hv hts]
  · rw [Shorthand.expand_eq_ok rfl, Family.longhands, longhands_eq_declaredParts,
      split_spread hw hus, funext (component?_perm hparts hperm)]

/-- A number without a unit is taken as no part, and whitespace inside brackets sets nothing apart. -/
theorem expand_reordered_unitless :
    let ts := ["5", "rgb(0, 0 ,0)", "1px"]
    let us := ["1px", "5", "rgb(0, 0 ,0)"]
    (∀ t ∈ ts, split t = [t] ∧ Whole t.toList) ∧
      (ts.filterMap BorderPart.ofComponent?).Nodup ∧ us.Perm ts ∧
      Spread ts "\t5\nrgb(0, 0 ,0)  1px".toList ∧ Spread us "1px \t5 rgb(0, 0 ,0)\n".toList ∧
      Shorthand.expand ⟨.border, .last⟩ ⟨"border", "1px \t5 rgb(0, 0 ,0)\n", true⟩ =
        .ok [⟨"border-width", "1px", true⟩, ⟨"border-color", "rgb(0, 0 ,0)", true⟩] := by
  intro ts us
  have hts : ∀ t ∈ ts, split t = [t] ∧ Whole t.toList := by decide +kernel
  have hparts : (ts.filterMap BorderPart.ofComponent?).Nodup := by decide +kernel
  have hperm : us.Perm ts := by decide
  have gap (s : String) (hs : s.toList.all Text.isSpace = true) :
      ∀ c ∈ s.toList, Text.isSpace c = true := List.all_eq_true.mp hs
  have hv : Spread ts "\t5\nrgb(0, 0 ,0)  1px".toList :=
    .cons (gap "\t" rfl) (.inr ⟨'\n', _, rfl, rfl⟩) (.cons (gap "\n" rfl) (.inr ⟨' ', _, rfl, rfl⟩)
      (.cons (gap "  " rfl) (.inl rfl) (.nil (gap "" rfl))))
  have hw : Spread us "1px \t5 rgb(0, 0 ,0)\n".toList :=
    .cons (gap "" rfl) (.inr ⟨' ', _, rfl, rfl⟩) (.cons (gap " \t" rfl) (.inr ⟨' ', _, rfl, rfl⟩)
      (.cons (gap " " rfl) (.inl rfl) (.nil (gap "\n" rfl))))
  have hexpand : Shorthand.expand ⟨.border, .last⟩
      ⟨"border", "\t5\nrgb(0, 0 ,0)  1px", true⟩ =
    .ok [⟨"border-width", "1px", true⟩, ⟨"border-color", "rgb(0, 0 ,0)", true⟩] := by decide +kernel
  obtain ⟨ls, hls, hsame, -⟩ := expand_reordered .last true hts hparts hperm hv hw
  exact ⟨hts, hparts, hperm, hv, hw, hsame.trans (hls.symm.trans hexpand)⟩

end StyleFold.BorderShorthand
