import StyleFold.Proofs.Shorthand.Background.Arguments

/-!
Where the image and the color of a background stand in its value. The color is looked up in the value
with a space for the first occurrence of the image's text, which need not be where the image was found.
-/
namespace StyleFold.BackgroundShorthand
open Text Pattern Declaration

variable {c : Char} {s t u x y picture hue : List Char}

/-- Both texts occur, and neither of the occurrences reaches into the other one. -/
def Apart (t u s : List Char) : Prop :=
  ∃ l m r, s = l ++ (t ++ (m ++ (u ++ r))) ∨ s = l ++ (u ++ (m ++ (t ++ r)))

/-- The image's text stands first among the arguments of a color, which has a space in its place. -/
inductive Torn (picture : List Char) : List Char → List Char → Prop
  | of {l name x y r : List Char} (hname : Keyword.isWordOf (Part.functions .color) name = true)
      (hx : ∀ c ∈ x, isPlain c = true) (hy : ∀ c ∈ y, isPlain c = true)
      (hfirst : ¬picture <:+: l ++ (name ++ '(' :: x)) :
      Torn picture (name ++ '(' :: (x ++ ' ' :: (y ++ [')'])))
        (l ++ (name ++ '(' :: (x ++ (picture ++ (y ++ ')' :: r)))))

theorem isWordOf_of_model {model : String} (hmodel : model ∈ ["rgb", "hsl"])
    (h : Language (seq (Pattern.word model) (optional (anyCase 'a'))) t) :
    Keyword.isWordOf (Part.functions .color) t = true := by
  obtain ⟨u, v, rfl, hu, hv⟩ := h
  have hlower := lower_of_word hu
  obtain ⟨d, rfl, hd⟩ | rfl := hv
  · have hletter : lower [d] = lower "a".toList := by
      rw [lower, List.map_singleton, beq_iff_eq.mp hd]
      rfl
    refine isWordOf_iff.mpr ⟨model ++ "a", List.mem_flatMap.mpr ⟨model, hmodel, by simp⟩, ?_⟩
    rw [String.toList_append, lower_append, lower_append, hlower, hletter]
  · rw [List.append_nil]
    exact isWordOf_iff.mpr ⟨model, List.mem_flatMap.mpr ⟨model, hmodel, by simp⟩, hlower⟩

theorem exists_of_colorFunction (h : Language colorFunction hue) :
    ∃ arguments, (∀ c ∈ arguments, isPlain c = true) ∧ IsCall .color arguments hue := by
  obtain ⟨name, _, rfl, hname, _, _, rfl, ⟨o, rfl, hopen⟩, arguments, _, rfl, hplain, d, rfl,
    hclose⟩ := h
  rw [beq_iff_eq.mp hopen, beq_iff_eq.mp hclose]
  refine ⟨arguments, hplain, name, ?_, rfl⟩
  exact hname.elim (isWordOf_of_model (by decide)) (isWordOf_of_model (by decide))

theorem language_of_firstToken {k : Part} (hsub : subgroups k.pattern = [])
    (h : firstToken? k.pattern s = some t) : Language k.pattern t ∧ t <:+: s ∧ t ≠ [] := by
  obtain ⟨hlang, hinfix⟩ := language_of_mem_tokens hsub (List.mem_of_head? h)
  obtain ⟨c, r, rfl, -⟩ := (firm_pattern k).head hlang
  exact ⟨hlang, hinfix, List.cons_ne_nil c r⟩

/-- A color that holds the space in place of the image is a function around it. -/
theorem torn_of_language (h : Language color (x ++ ' ' :: y)) (hx : x <:+ s) (hy : y <+: t)
    (hfirst : ¬picture <:+: s) : Torn picture (x ++ ' ' :: y) (s ++ (picture ++ t)) := by
  obtain h | h := language_color h
  · exact absurd (h.wordy ' ' (by simp)) (by decide)
  · obtain ⟨arguments, hplain, name, hname, hcall⟩ := exists_of_colorFunction h
    have hspace : ' ' ∉ name ++ ['('] := by
      have hnot : ' ' ∉ name := fun hm =>
        absurd ((isCallChar_of_functions hname).2 ' ' hm) (by decide)
      simpa using hnot
    have hsplit : name ++ ['('] ++ (arguments ++ [')']) = x ++ ' ' :: y := by
      simpa using hcall.symm
    -- The space stands neither in the name nor behind the arguments.
    obtain ⟨front, rfl, hbehind⟩ := exists_of_not_mem_left hsplit hspace
    obtain ⟨back, rfl, rfl⟩ := exists_of_not_mem_right hbehind (by decide)
    obtain ⟨hfront, hback⟩ := List.forall_mem_append.mp hplain
    obtain ⟨l, rfl⟩ := hx
    obtain ⟨r, rfl⟩ := hy
    have htorn := Torn.of (r := r) hname hfront (List.forall_mem_cons.mp hback).2
      (by simpa using hfirst)
    simpa using htorn

/-- The color is looked up on both sides of the image, and across the place where it was. -/
theorem apart_or_torn (himage : firstToken? image s = some picture)
    (hcolor : firstToken? color (withoutImage s) = some hue) :
    Apart picture hue s ∨ Torn picture hue s := by
  obtain ⟨-, hinfix, hne⟩ := language_of_firstToken (k := .image) subgroups_image himage
  obtain ⟨hlang, hfound, -⟩ := language_of_firstToken (k := .color) subgroups_color hcolor
  obtain ⟨a, b, rfl, hreplaced, hfirst⟩ := exists_replaceFirst hne hinfix [' ']
  rw [withoutImage, himage] at hfound
  dsimp only at hfound
  rw [hreplaced] at hfound
  obtain ⟨l, r, rfl⟩ | ⟨l, r, rfl⟩ | ⟨x, y, rfl, hx, hy⟩ := infix_append_cons_cases hfound
  · exact .inl ⟨l, r, b, .inr (by simp)⟩
  · exact .inl ⟨a, l, r, .inl (by simp)⟩
  · exact .inr (torn_of_language hlang hx hy hfirst)

theorem exists_of_orInitial {text? : Option (List Char)} (h : orInitial text? ≠ initial) :
    ∃ t, text? = some t := by
  cases text? with
  | none => exact absurd rfl h
  | some t => exact ⟨t, rfl⟩

theorem ne_initial {k : Part} (h : Language k.pattern t) : String.ofList t ≠ initial := by
  intro hinitial
  have ht : t = initial.toList := by rw [← hinitial, String.toList_ofList]
  rw [ht] at h
  obtain h | ⟨name, r, hcall, -⟩ := language_pattern h
  · exact not_isWord_initial k h
  · have hopen : '(' ∉ initial.toList := by decide
    exact hopen (by rw [hcall]; simp)

/-- The image of a background is a piece of its value. So is the color, apart from the image, unless the
image's text stands first among the arguments of a function of the color. -/
theorem expand_pieces (policy : DuplicatePolicy) (v : String) (important : Bool) :
    ∃ value : BackgroundSlot → String,
      Shorthand.expand ⟨.background, policy⟩ ⟨"background", v, important⟩ =
        .ok (BackgroundSlot.all.map fun slot => ⟨slot.longhand, value slot, important⟩) ∧
      (value .image ≠ initial → (value .image).toList <:+: v.toList) ∧
      (value .color ≠ initial → value .image = initial → (value .color).toList <:+: v.toList) ∧
      (value .color ≠ initial → value .image ≠ initial →
        Apart (value .image).toList (value .color).toList v.toList ∨
          Torn (value .image).toList (value .color).toList v.toList) := by
  refine ⟨_, expand_eq policy v important, fun himage => ?_, fun hcolor himage => ?_,
    fun hcolor himage => ?_⟩
  · obtain ⟨t, ht⟩ := exists_of_orInitial himage
    rw [ht, orInitial, String.toList_ofList]
    exact (language_of_firstToken (k := .image) subgroups_image ht).2.1
  · obtain ⟨c, hc⟩ := exists_of_orInitial hcolor
    have hwithout : withoutImage v.toList = v.toList := by
      cases ht : firstToken? image v.toList with
      | none => rw [withoutImage, ht]
      | some t =>
        rw [slotText?, ht] at himage
        exact absurd himage (ne_initial (language_of_firstToken (k := .image) subgroups_image ht).1)
    rw [hc, orInitial, String.toList_ofList, ← hwithout]
    exact (language_of_firstToken (k := .color) subgroups_color hc).2.1
  · obtain ⟨t, ht⟩ := exists_of_orInitial himage
    obtain ⟨c, hc⟩ := exists_of_orInitial hcolor
    rw [ht, hc, orInitial, orInitial, String.toList_ofList, String.toList_ofList]
    exact apart_or_torn ht hc

/-- A color inside of the image is not taken for that of the background. -/
theorem expand_pieces_gradient :
    Shorthand.expand ⟨.background, .first⟩
        ⟨"background", "rgba( 0, 0 ,0) 1px linear-gradient( red , rgb(0 0 0) )\tnone", true⟩ =
      .ok [⟨"background-image", "linear-gradient( red , rgb(0 0 0) )", true⟩,
        ⟨"background-position", "1px", true⟩, ⟨"background-size", "initial", true⟩,
        ⟨"background-repeat", "initial", true⟩, ⟨"background-attachment", "initial", true⟩,
        ⟨"background-origin", "initial", true⟩, ⟨"background-clip", "initial", true⟩,
        ⟨"background-color", "rgba( 0, 0 ,0)", true⟩] ∧
      (Apart "linear-gradient( red , rgb(0 0 0) )".toList "rgba( 0, 0 ,0)".toList
          "rgba( 0, 0 ,0) 1px linear-gradient( red , rgb(0 0 0) )\tnone".toList ∨
        Torn "linear-gradient( red , rgb(0 0 0) )".toList "rgba( 0, 0 ,0)".toList
          "rgba( 0, 0 ,0) 1px linear-gradient( red , rgb(0 0 0) )\tnone".toList) := by
  have hexpand : Shorthand.expand ⟨.background, .first⟩
      ⟨"background", "rgba( 0, 0 ,0) 1px linear-gradient( red , rgb(0 0 0) )\tnone", true⟩ =
    .ok [⟨"background-image", "linear-gradient( red , rgb(0 0 0) )", true⟩,
      ⟨"background-position", "1px", true⟩, ⟨"background-size", "initial", true⟩,
      ⟨"background-repeat", "initial", true⟩, ⟨"background-attachment", "initial", true⟩,
      ⟨"background-origin", "initial", true⟩, ⟨"background-clip", "initial", true⟩,
      ⟨"background-color", "rgba( 0, 0 ,0)", true⟩] := by decide +kernel
  obtain ⟨value, hvalue, -, -, hpieces⟩ := expand_pieces .first
    "rgba( 0, 0 ,0) 1px linear-gradient( red , rgb(0 0 0) )\tnone" true
  rw [hexpand] at hvalue
  simp only [BackgroundSlot.all, List.map_cons, Except.ok.injEq, List.cons.injEq,
    Declaration.mk.injEq] at hvalue
  obtain ⟨⟨-, himage, -⟩, -, -, -, -, -, -, ⟨-, hcolor, -⟩, -⟩ := hvalue
  rw [← himage, ← hcolor] at hpieces
  exact ⟨hexpand, hpieces (by decide) (by decide)⟩

/-- The image is found behind the color, and cut out of the arguments of the color. -/
theorem not_expand_pieces_none :
    Shorthand.expand ⟨.background, .first⟩ ⟨"background", "rgb(none) none", false⟩ =
        .ok [⟨"background-image", "none", false⟩, ⟨"background-position", "initial", false⟩,
          ⟨"background-size", "initial", false⟩, ⟨"background-repeat", "initial", false⟩,
          ⟨"background-attachment", "initial", false⟩, ⟨"background-origin", "initial", false⟩,
          ⟨"background-clip", "initial", false⟩, ⟨"background-color", "rgb( )", false⟩] ∧
      "rgb( )" ≠ initial ∧ ¬"rgb( )".toList <:+: "rgb(none) none".toList := by
  decide +kernel

end StyleFold.BackgroundShorthand
