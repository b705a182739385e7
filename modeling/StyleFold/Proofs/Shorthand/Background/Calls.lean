import StyleFold.Proofs.Shorthand.Background.Parts

/-!
The function calls of a background: the patterns of the image and of the color take them, and the
others do not see them.
-/
namespace StyleFold.BackgroundShorthand
open Text Pattern

variable {n : Nat} {p : Pattern} {c : Char} {s t u v w m name gap : List Char} {first : Bool}
  {texts ms : List (List Char)}

theorem shallow_of_plain (h : ∀ c ∈ u, isPlain c = true) : Shallow u := by
  induction u with
  | nil => exact .nil
  | cons c u ih =>
    obtain ⟨hc, hu⟩ := List.forall_mem_cons.mp h
    exact .plain hc (ih hu)

theorem exists_of_lower_append {x y : String} (h : lower w = lower (x ++ y).toList) :
    ∃ u v, w = u ++ v ∧ lower u = lower x.toList ∧ lower v = lower y.toList := by
  rw [String.toList_append, lower_append] at h
  exact List.map_eq_append_iff.mp h

theorem isCallChar_of_functions {k : Part} (h : Keyword.isWordOf k.functions name = true) :
    name ≠ [] ∧ ∀ c ∈ name, isCallChar c = true := by
  have hnames : ∀ x ∈ k.functions, lower x.toList ≠ [] ∧ (lower x.toList).all isCallChar = true := by
    cases k <;> decide
  obtain ⟨x, hx, hlower⟩ := isWordOf_iff.mp h
  obtain ⟨hfilled, hall⟩ := hnames x hx
  rw [← hlower] at hfilled hall
  refine ⟨fun hnil => hfilled (by rw [hnil]; rfl), fun c hc => ?_⟩
  obtain hl | hl := isLetter_or_toLower_eq c
  · simp [isCallChar, hl]
  · rw [← hl]
    exact List.all_eq_true.mp hall _ (List.mem_map_of_mem hc)

theorem not_mem_of_functions {k : Part} (h : Keyword.isWordOf k.functions name = true) :
    '(' ∉ name :=
  fun hm => absurd ((isCallChar_of_functions h).2 '(' hm) (by decide)

theorem takes_shape {x : String} (hx : x ∈ ["linear", "radial", "conic"])
    (hw : lower w = lower x.toList) (t : List Char) :
    Takes (Pattern.any [Pattern.word "linear", Pattern.word "radial", Pattern.word "conic"]) w t := by
  simp only [List.mem_cons, List.not_mem_nil, or_false] at hx
  obtain rfl | rfl | rfl := hx
  · exact (Takes.word hw t).alt_left _
  · exact ((Takes.word hw t).alt_left _).alt_right (.word hw (by decide) t)
  · exact ((Takes.word hw t).alt_right (.word hw (by decide) t)).alt_right (.word hw (by decide) t)

theorem takes_gradient {x : String} (hx : x ∈ Part.functions .image) (hurl : x ≠ "url")
    (hname : lower name = lower x.toList) (hu : Shallow u) (t : List Char) :
    Takes gradient (name ++ '(' :: (u ++ [')'])) t := by
  obtain ⟨repeating, hrepeating, hx⟩ :=
    List.mem_flatMap.mp ((List.mem_cons.mp hx).resolve_left hurl)
  obtain ⟨shape, hshape, rfl⟩ := List.mem_map.mp hx
  obtain ⟨a, v, rfl, ha, hv⟩ := exists_of_lower_append hname
  obtain ⟨b, c, rfl, hb, hc⟩ := exists_of_lower_append hv
  have hrest := (takes_shape hshape hb _).seq ((Takes.word hc _).seq (takes_arguments hu t))
  rw [List.append_assoc, List.append_assoc]
  refine Takes.seq ?_ hrest
  simp only [List.mem_cons, List.not_mem_nil, or_false] at hrepeating
  obtain rfl | rfl := hrepeating
  · obtain rfl : a = [] := List.map_eq_nil_iff.mp ha
    refine .optional_empty ?_
    rw [List.append_assoc]
    have hdiffer : ∀ x ∈ ["linear", "radial", "conic"],
        ¬(lower "repeating-".toList <+: lower x.toList ∨
          lower x.toList <+: lower "repeating-".toList) := by decide
    exact .word hb (hdiffer shape hshape) _
  · exact (Takes.word ha _).optional

theorem takes_image (h : IsImage w) (ht : Stop t) : Takes image w t := by
  obtain h | ⟨arguments, hshallow, name, hname, rfl⟩ := h
  · exact h.takes ht
  · obtain ⟨x, hx, hlower⟩ := isWordOf_iff.mp hname
    by_cases hurl : x = "url"
    · rw [hurl] at hlower
      exact ((Takes.word hlower _).seq (takes_arguments hshallow t)).alt_left _
    · have hdiffer : ∀ x ∈ Part.functions .image, x ≠ "url" →
          ¬(lower "url".toList <+: lower x.toList ∨ lower x.toList <+: lower "url".toList) := by
        decide
      have hrefuses : Refuses (Pattern.word "url") (name ++ '(' :: (arguments ++ [')']) ++ t) := by
        rw [List.append_assoc]
        exact .word hlower (hdiffer x hx hurl) _
      exact ((takes_gradient hx hurl hlower hshallow t).alt_left _).alt_right (hrefuses.seq _)

theorem takes_colorFunction {x : String} (hx : x ∈ Part.functions .color)
    (hname : lower name = lower x.toList) (hu : ∀ c ∈ u, isPlain c = true) (t : List Char) :
    Takes colorFunction (name ++ '(' :: (u ++ [')'])) t := by
  have hopen : Takes (symbol '(') ['('] (u ++ [')'] ++ t) := .char rfl _
  have hclose : Takes (symbol ')') [')'] t := .char rfl t
  have hmany : Takes (many isPlain) u ([')'] ++ t) := .many hu (by rintro c ⟨⟩; decide)
  refine Takes.seq ?_ (hopen.seq (hmany.seq hclose))
  obtain ⟨model, hmodel, hx⟩ := List.mem_flatMap.mp hx
  have hletter : ∃ a b, name = a ++ b ∧ lower a = lower model.toList ∧
      Takes (optional (anyCase 'a')) b ('(' :: (u ++ [')']) ++ t) := by
    simp only [List.mem_cons, List.not_mem_nil, or_false] at hx
    obtain rfl | rfl := hx
    · refine ⟨name, [], (List.append_nil _).symm, hname, .optional_empty ?_⟩
      refine Starts.refuses (f := fun c => c.toLower == 'a'.toLower) (.char fun _ => id) ?_
      rintro c ⟨⟩
      decide
    · obtain ⟨a, b, rfl, ha, hb⟩ := exists_of_lower_append hname
      exact ⟨a, b, rfl, ha, (Takes.word (x := "a") hb _).optional⟩
  obtain ⟨a, b, rfl, ha, hb⟩ := hletter
  simp only [List.mem_cons, List.not_mem_nil, or_false] at hmodel
  obtain rfl | rfl := hmodel
  · exact ((Takes.word ha _).seq hb).alt_left _
  · refine ((Takes.word ha _).seq hb).alt_right (.seq ?_ _)
    rw [List.append_assoc]
    exact .word ha (by decide) _

theorem takes_color (h : IsColor w) (ht : Stop t) : Takes color w t := by
  obtain h | ⟨arguments, hplain, -, name, hname, rfl⟩ := h
  · exact h.takes ht
  · obtain ⟨x, hx, hlower⟩ := isWordOf_iff.mp hname
    have hhex (n : Nat) : Refuses (hexColor (n + 1)) (name ++ '(' :: (arguments ++ [')']) ++ t) := by
      have hfirst : ∀ x ∈ Part.functions .color, ((lower x.toList).head?.any (· != '#')) = true := by
        decide
      have hfirst := hfirst x hx
      rw [← hlower] at hfirst
      refine Starts.refuses (f := (· == '#')) (.seq (.char fun _ => id) _) ?_
      cases name with
      | nil => contradiction
      | cons d name =>
        rintro d ⟨⟩
        rw [beq_eq_false_iff_ne]
        rintro rfl
        have hsign : ('#'.toLower != '#') = true := hfirst
        exact absurd hsign (by decide)
    exact .any_cons_right (hhex 5) (.any_cons_right (hhex 2)
      (.any_cons_left (takes_colorFunction hx hlower hplain t) _))

theorem exists_of_not_mem_left {a b : List Char} (h : a ++ b = u ++ c :: v) (hc : c ∉ a) :
    ∃ u', u = a ++ u' ∧ b = u' ++ c :: v := by
  obtain ⟨x, rfl, hx⟩ | ⟨x, rfl, hx⟩ := List.append_eq_append_iff.mp h
  · exact ⟨x, rfl, hx⟩
  · cases x with
    | nil => exact ⟨[], by simp, by simpa using hx.symm⟩
    | cons d x =>
      obtain ⟨rfl, -⟩ := List.cons.inj hx
      simp at hc

theorem exists_of_not_mem_right {a b : List Char} (h : a ++ b = u ++ c :: v) (hc : c ∉ b) :
    ∃ v', a = u ++ c :: v' ∧ v = v' ++ b := by
  obtain ⟨x, rfl, hx⟩ | ⟨x, rfl, hx⟩ := List.append_eq_append_iff.mp h
  · simp [hx] at hc
  · cases x with
    | nil =>
      rw [List.nil_append] at hx
      simp [← hx] at hc
    | cons d x =>
      obtain ⟨rfl, hv⟩ := List.cons.inj hx
      exact ⟨x, rfl, hv⟩

theorem Skips.refused (hp : Firm p) (hw : ∀ t, Stop t → Refuses p (w ++ t)) (hne : w ≠ [])
    (hfirst : ∀ c ∈ w.head?, isGap c = false)
    (hgap : ∀ u d v, w = u ++ d :: v → isGap d = true → ∀ t, Stop t → Refuses p (v ++ t)) :
    Skips p w := by
  intro n first lead t hlead ht
  have hinside {s : List Char} (hs : s <:+ w) :
      tokensFrom n p false (s ++ t) = tokensFrom n p false t := by
    induction s with
    | nil => rfl
    | cons c s ih =>
      rw [List.cons_append, tokensFrom_of_none, ih ((List.suffix_cons c s).trans hs)]
      refine Option.eq_none_iff_forall_ne_some.mpr fun stop hstop => ?_
      obtain ⟨u, hu⟩ := hs
      obtain ⟨lead, v, hsplit, ⟨-, hf⟩ | ⟨d, rfl, hd⟩, hlang⟩ := match?_cases hstop
      · contradiction
      · obtain ⟨rfl, hrest⟩ := List.cons.inj hsplit
        exact hgap u c s hu.symm hd t ht v stop.rest hrest hlang
  obtain ⟨c, r, rfl⟩ := List.exists_cons_of_ne_nil hne
  obtain rfl | ⟨d, rfl, hd⟩ := hlead
  · rw [List.nil_append, List.cons_append, tokensFrom_of_none, hinside (List.suffix_cons c r)]
    refine Option.eq_none_iff_forall_ne_some.mpr fun stop hstop => ?_
    obtain ⟨lead, v, hsplit, ⟨rfl, -⟩ | ⟨d, rfl, hd⟩, hlang⟩ := match?_cases hstop
    · exact hw t ht v stop.rest hsplit hlang
    · obtain ⟨rfl, -⟩ := List.cons.inj hsplit
      rw [hfirst c rfl] at hd
      contradiction
  · rw [List.singleton_append, tokensFrom_of_none, hinside List.suffix_rfl]
    refine Option.eq_none_iff_forall_ne_some.mpr fun stop hstop => ?_
    obtain ⟨lead, v, hsplit, ⟨rfl, -⟩ | ⟨e, rfl, -⟩, hlang⟩ := match?_cases hstop
    · obtain ⟨e, r, rfl, he⟩ := hp.head hlang
      obtain ⟨rfl, -⟩ := List.cons.inj hsplit
      rw [isStop_of_isGap hd] at he
      contradiction
    · obtain ⟨rfl, hrest⟩ := List.cons.inj hsplit
      exact hw t ht v stop.rest hrest hlang

theorem refuses_image_arguments (hplain : ∀ c ∈ u, isPlain c = true)
    (hnone : ¬"none".toList <:+: lower u) (t : List Char) : Refuses image (u ++ ')' :: t) := by
  have hclose : ∀ c ∈ (')' :: t).head?, isCallChar c = false ∧ c ≠ '(' := by
    rintro c ⟨⟩
    decide
  have hopen : '(' ∉ u := fun hm => absurd (hplain '(' hm) (by decide)
  have hcall := not_beginsCall_append (t := ')' :: t) hopen hclose
  refine .alt (refuses_of_not_beginsCall (fun _ => beginsCall_url) hcall)
    (.alt (refuses_of_not_beginsCall (fun _ => beginsCall_gradient) hcall) ?_)
  intro v rest hsplit hv
  have hlower := lower_of_word hv
  obtain ⟨a, rfl, ha⟩ | ⟨a, rfl, -⟩ := List.append_eq_append_iff.mp hsplit
  · cases a with
    | nil =>
      rw [List.append_nil] at hlower
      exact hnone (by rw [hlower]; exact List.infix_rfl)
    | cons c a =>
      obtain ⟨rfl, -⟩ := List.cons.inj ha
      have hmem : ')'.toLower ∈ lower (u ++ ')' :: a) := List.mem_map_of_mem (by simp)
      rw [hlower] at hmem
      exact absurd hmem (by decide)
  · refine hnone ⟨[], lower a, ?_⟩
    rw [List.nil_append, lower_append, hlower]
    rfl

/-- No function of a color is called as an image is. -/
theorem refuses_image_call (hname : Keyword.isWordOf (Part.functions .color) name = true)
    (s : List Char) : Refuses image (name ++ s) := by
  obtain ⟨x, hx, hlower⟩ := isWordOf_iff.mp hname
  have hdiffer : ∀ x ∈ Part.functions .color,
      ∀ y ∈ ["url", "repeating-", "linear", "radial", "conic", "none"],
        ¬(lower y.toList <+: lower x.toList ∨ lower x.toList <+: lower y.toList) := by decide
  have hword {y : String} (hy : y ∈ ["url", "repeating-", "linear", "radial", "conic", "none"]) :
      Refuses (Pattern.word y) (name ++ s) := .word hlower (hdiffer x hx y hy) _
  have hgradients := Refuses.alt (hword (y := "linear") (by decide))
    (.alt (hword (y := "radial") (by decide)) (hword (y := "conic") (by decide)))
  exact .alt (.seq (hword (by decide)) _)
    (.alt (.optional_seq (hword (by decide)) (.seq hgradients _)) (hword (by decide)))

theorem not_isGap_of_functions {k : Part} (hname : Keyword.isWordOf k.functions name = true)
    (hc : c ∈ name) : isGap c = false := by
  have hnot := not_isStop_of_accepts (f := isCallChar) (by decide)
    ((isCallChar_of_functions hname).2 c hc)
  rw [isStop, Bool.not_eq_true', Bool.or_eq_false_iff] at hnot
  exact hnot.1

theorem exists_of_gap {k : Part} {d : Char} {arguments : List Char}
    (hname : Keyword.isWordOf k.functions name = true)
    (hsplit : name ++ '(' :: (arguments ++ [')']) = u ++ d :: v) (hd : isGap d = true) :
    ∃ u' v', v = v' ++ [')'] ∧ arguments = u' ++ d :: v' := by
  have hfront : d ∉ name ++ ['('] := by
    intro hm
    obtain hm | hm := List.mem_append.mp hm
    · rw [not_isGap_of_functions hname hm] at hd
      contradiction
    · obtain rfl := List.mem_singleton.mp hm
      exact absurd hd (by decide)
  have hback : d ∉ [')'] := by
    intro hm
    obtain rfl := List.mem_singleton.mp hm
    exact absurd hd (by decide)
  have hsplit : name ++ ['('] ++ (arguments ++ [')']) = u ++ d :: v := by simpa using hsplit
  obtain ⟨u', -, hrest⟩ := exists_of_not_mem_left hsplit hfront
  obtain ⟨v', harguments, hv⟩ := exists_of_not_mem_right hrest hback
  exact ⟨u', v', hv, harguments⟩

theorem IsColor.skips_image (h : IsColor w) : Skips image w := by
  obtain h | ⟨arguments, hplain, hnone, name, hname, rfl⟩ := h
  · exact h.skips (l := .image) (by decide) (.inl rfl)
  · refine .refused (firm_pattern .image) (fun t _ => ?_) (by simp) ?_ ?_
    · rw [List.append_assoc]
      exact refuses_image_call hname _
    · obtain ⟨c, r, rfl⟩ := List.exists_cons_of_ne_nil (isCallChar_of_functions hname).1
      rintro d ⟨⟩
      exact not_isGap_of_functions hname List.mem_cons_self
    · intro u d v hsplit hd t ht
      obtain ⟨u', v', rfl, rfl⟩ := exists_of_gap hname hsplit hd
      rw [List.append_assoc]
      refine refuses_image_arguments (fun c hc => hplain c (by simp [hc])) (fun hm => hnone ?_) t
      exact hm.trans ⟨lower (u' ++ [d]), [], by simp [lower]⟩

end StyleFold.BackgroundShorthand
