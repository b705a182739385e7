import StyleFold.Proofs.Pattern.Tame
import StyleFold.Proofs.Reader.Reread
import StyleFold.Shorthand.Background

/-!
The longhands of a background. All of them are trimmed values, and only those of the image and of the
color can reach beyond their ends: the patterns of the others match tame texts alone.
-/
namespace StyleFold.BackgroundShorthand
open Text Lexeme Value Pattern Reader.Strict

variable {p q : Pattern} {ps : List Pattern} {s m u v w : List Char} {c : Char}
  {slot : BackgroundSlot}

theorem language_of_mem_tokens (hp : subgroups p = []) (h : w ∈ tokens p s) :
    Language p w ∧ w <:+: s := by
  obtain ⟨m, hm, hw⟩ := List.mem_filterMap.mp h
  rw [token?] at hw
  split at hw
  · obtain ⟨first, u, hu, hwent⟩ := exists_went_of_mem_matches hm
    obtain ⟨q, hq, hlang, hwithin⟩ := hwent.group hw
    obtain rfl : q = p := by simpa [atTokenStart, subgroups, hp] using hq
    exact ⟨hlang, hwithin.trans hu.isInfix⟩
  · cases hw

theorem mem_replaceFirst (h : c ∈ replaceFirst u v s) : c ∈ v ∨ c ∈ s := by
  induction s with
  | nil => cases h
  | cons d s ih =>
    rw [replaceFirst] at h
    split at h
    · obtain h | h := List.mem_append.mp h
      · exact .inl h
      · exact .inr (List.mem_of_mem_drop h)
    · obtain rfl | h := List.mem_cons.mp h
      · exact .inr List.mem_cons_self
      · exact (ih h).imp_right (List.mem_cons_of_mem d)

theorem not_mem_withoutImage (h : '\\' ∉ s) : '\\' ∉ withoutImage s := by
  intro hm
  rw [withoutImage] at hm
  split at hm
  · obtain hm | hm := mem_replaceFirst hm
    · simp at hm
    · exact h hm
  · exact h hm

def IsTrimmed (p : Pattern) : Prop :=
  ∀ w, Language p w → w ≠ [] ∧ trim w = w

namespace IsTrimmed

theorem of_tame (h : IsTame p) : IsTrimmed p :=
  fun w hw => ⟨(h w hw).filled, (h w hw).component.trim_eq⟩

theorem any (h : ∀ p ∈ ps, IsTrimmed p) : IsTrimmed (any ps) := by
  intro w hw
  obtain ⟨p, hp, hlang⟩ := exists_of_any hw
  exact h p hp w hlang

theorem call (hp : IsTame p) (hps : ps ≠ []) :
    IsTrimmed (Pattern.all [p, Pattern.all (ps ++ [symbol ')'])]) := by
  rintro w ⟨u, v, rfl, hu, hv⟩
  obtain ⟨x, y, rfl, -, z, rfl, hz⟩ := (language_all_concat hps).mp hv
  obtain rfl := beq_iff_eq.mp hz
  have hname := trim_eq_self_iff.mp (hp u hu).component.trim_eq
  refine ⟨by simp, trim_eq_self_iff.mpr ⟨?_, ?_⟩⟩
  · rw [List.head?_append_of_ne_nil _ (hp u hu).filled]
    exact hname.1
  · rw [← List.append_assoc, List.getLast?_concat]
    rintro c ⟨⟩
    decide

end IsTrimmed

theorem isLetter_or_isDigit (h : isHexDigit c = true) : (isLetter c || isDigit c) = true := by
  simp only [isHexDigit, isLetter, Bool.or_eq_true, Bool.and_eq_true, decide_eq_true_eq] at h ⊢
  obtain (h | ⟨hl, hr⟩) | ⟨hl, hr⟩ := h
  · exact .inr h
  · exact .inl (.inl ⟨hl, hr.trans (by decide)⟩)
  · exact .inl (.inr ⟨hl, hr.trans (by decide)⟩)

theorem isTame_hexColor (n : Nat) : IsTame (hexColor n) := by
  have hhash : isTame '#' = true := by decide
  refine .of_within (.all (List.forall_mem_cons.mpr ⟨.char fun c hc => ?_, fun p hp => ?_⟩)) ?_
  · rwa [beq_iff_eq.mp hc]
  · obtain rfl := List.eq_of_mem_replicate hp
    exact .char fun c hc => isTame_of_alphanumeric (isLetter_or_isDigit hc)
  · cases n with
    | zero => exact .char
    | succ n => exact Filled.char.seq_left _

theorem isTrimmed_image : IsTrimmed image := by
  have hgradient : IsTame (Pattern.all [optional (Pattern.word "repeating-"),
      Pattern.any [Pattern.word "linear", Pattern.word "radial", Pattern.word "conic"],
      Pattern.word "-gradient"]) := by
    have hshape : IsTame
        (Pattern.any [Pattern.word "linear", Pattern.word "radial", Pattern.word "conic"]) :=
      .alt (.word (by decide)) (.alt (.word (by decide)) (.word (by decide)))
    have hrepeating : IsTame (Pattern.word "repeating-") := .word (by decide)
    have hlast : IsTame (Pattern.word "-gradient") := .word (by decide)
    exact .of_within (hrepeating.within.optional.seq (hshape.within.seq hlast.within))
      ((hshape.filled.seq_left _).seq_right _)
  refine .any (List.forall_mem_cons.mpr ⟨?url, List.forall_mem_cons.mpr ⟨?gradient,
    List.forall_mem_singleton.mpr (.of_tame (.word (by decide)))⟩⟩)
  case url => exact .call (.word (by decide)) (List.cons_ne_nil _ [_])
  case gradient =>
    intro w hw
    obtain ⟨u, v, rfl, hu, hv⟩ := (language_all_concat (List.cons_ne_nil _ [_, _])).mp hw
    exact IsTrimmed.call hgradient (List.cons_ne_nil _ [_]) (u ++ v) ⟨u, v, rfl, hu, hv⟩

theorem isTrimmed_color : IsTrimmed color := by
  have hname : IsTame (Pattern.any [seq (Pattern.word "rgb") (optional (anyCase 'a')),
      seq (Pattern.word "hsl") (optional (anyCase 'a'))]) := by
    have hletter : Within isTame (anyCase 'a') := .char fun c hc =>
      isTame_of_toLower (by rw [beq_iff_eq.mp hc]; decide)
    have hcall {s : String} (hs : isTameWord s = true) :
        IsTame (seq (Pattern.word s) (optional (anyCase 'a'))) :=
      .of_within ((IsTame.word hs).within.seq hletter.optional) ((IsTame.word hs).filled.seq_left _)
    exact .alt (hcall (by decide)) (hcall (by decide))
  have hnamed : namedColors.all isTameWord = true := by decide +kernel
  have hspecial : specialColors.all isTameWord = true := by decide +kernel
  have hnames : (namedColors ++ specialColors).all isTameWord = true := by
    rw [List.all_append, hnamed, hspecial, Bool.true_and]
  have hfunction : IsTrimmed colorFunction := .call hname (List.cons_ne_nil _ [_])
  refine .any ?_
  simp only [List.forall_mem_cons, List.not_mem_nil, false_implies, implies_true, and_true]
  exact ⟨.of_tame (isTame_hexColor 6), .of_tame (isTame_hexColor 3), hfunction,
    .of_tame (.oneOf hnames)⟩

theorem subgroups_image : subgroups image = [] := by
  rfl

theorem subgroups_color : subgroups color = [] := by
  refine subgroups_any ?_
  simp only [List.forall_mem_cons, List.not_mem_nil, false_implies, implies_true, and_true]
  exact ⟨rfl, rfl, rfl, subgroups_oneOf _⟩

theorem trimmed_of_mem_tokens (hp : IsTrimmed p) (hsub : subgroups p = []) (hs : '\\' ∉ s)
    (h : w ∈ tokens p s) : Trimmed w := by
  obtain ⟨hlang, hwithin⟩ := language_of_mem_tokens hsub h
  exact ⟨(hp w hlang).1, (hp w hlang).2, fun hm => hs (hwithin.subset hm)⟩

theorem tame_of_mem_tokens (hp : IsTame p) (hsub : subgroups p = []) (h : w ∈ tokens p s) :
    Tame w :=
  hp w (language_of_mem_tokens hsub h).1

theorem kept_of_firstTokens {n : Nat} (hp : IsTame p) (hsub : subgroups p = [])
    (h : firstTokens? n p s = some w) : Trimmed w ∧ Contained w := by
  rw [firstTokens?] at h
  split at h
  · cases h
  · rename_i ts hts
    obtain rfl := Option.some.inj h
    have htame : ∀ t ∈ ((tokens p s).take n).map String.ofList, Tame t.toList := by
      intro t ht
      obtain ⟨u, hu, rfl⟩ := List.mem_map.mp ht
      rw [String.toList_ofList]
      exact tame_of_mem_tokens hp hsub (List.mem_of_mem_take hu)
    have hcomponent := fun t ht => (htame t ht).component
    have hcontained := contained_spaced hcomponent fun t ht => (htame t ht).unmarked
    refine ⟨⟨spaced_ne_nil hcomponent fun he => ?_, trim_spaced hcomponent, hcontained.plain⟩,
      hcontained⟩
    exact hts (List.map_eq_nil_iff.mp he)

theorem kept_of_mem_boxes (h : w ∈ boxes m) : Trimmed w ∧ Contained w := by
  have htame : Tame w := tame_of_mem_tokens (.oneOf (by decide +kernel)) (subgroups_oneOf _) h
  exact ⟨htame.component.trimmed, htame.contained⟩

theorem kept_of_slotText (himage : slot ≠ .image) (hcolor : slot ≠ .color)
    (h : slotText? s m slot = some w) : Trimmed w ∧ Contained w := by
  cases slot with
  | image => exact absurd rfl himage
  | color => exact absurd rfl hcolor
  | position =>
    exact kept_of_firstTokens (.alt (.oneOf (by decide +kernel)) .signedDecimal)
      (by simp [subgroups]) h
  | size =>
    obtain ⟨t, -, ht⟩ := Option.bind_eq_some_iff.mp h
    exact kept_of_firstTokens (.alt (.oneOf (by decide +kernel)) .signedDecimal)
      (by simp [subgroups]) ht
  | tiling => exact kept_of_firstTokens (.oneOf (by decide +kernel)) (subgroups_oneOf _) h
  | attachment =>
    have htame : Tame w := tame_of_mem_tokens (.oneOf (by decide +kernel)) (subgroups_oneOf _)
      (List.mem_of_head? h)
    exact ⟨htame.component.trimmed, htame.contained⟩
  | origin => exact kept_of_mem_boxes (List.mem_of_head? h)
  | clip =>
    obtain h | ⟨-, h⟩ := Option.or_eq_some_iff.mp h
    · exact kept_of_mem_boxes (List.mem_of_getElem? h)
    · exact kept_of_mem_boxes (List.mem_of_head? h)

theorem trimmed_of_slotText (hs : '\\' ∉ s) (h : slotText? s m slot = some w) : Trimmed w := by
  by_cases himage : slot = .image
  · subst himage
    exact trimmed_of_mem_tokens isTrimmed_image subgroups_image hs (List.mem_of_head? h)
  by_cases hcolor : slot = .color
  · subst hcolor
    exact trimmed_of_mem_tokens isTrimmed_color subgroups_color (not_mem_withoutImage hs)
      (List.mem_of_head? h)
  · exact (kept_of_slotText himage hcolor h).1

theorem mem_longhands {value : String} {d : Declaration} : d ∈ longhands value ↔ ∃ slot, d =
    Declaration.of slot.longhand (orInitial (slotText? value.toList (masked value.toList) slot)) := by
  have hall (slot : BackgroundSlot) : slot ∈ BackgroundSlot.all := by cases slot <;> decide
  rw [longhands, slotLonghands, List.mem_map]
  exact ⟨fun ⟨slot, _, h⟩ => ⟨slot, h.symm⟩, fun ⟨slot, h⟩ => ⟨slot, hall slot, h.symm⟩⟩

theorem trimmed_of_mem_longhands {value : String} {d : Declaration} (hs : '\\' ∉ value.toList)
    (hd : d ∈ longhands value) : isNamed d.property.toList = true ∧ Trimmed d.value.toList := by
  obtain ⟨slot, rfl⟩ := mem_longhands.mp hd
  have hnamed : isNamed (Declaration.lowercase slot.longhand).toList = true := by
    cases slot <;> decide
  refine ⟨hnamed, ?_⟩
  change Trimmed (orInitial _).toList
  cases h : slotText? value.toList (masked value.toList) slot with
  | none => exact tame_initial.component.trimmed
  | some w =>
    rw [orInitial, String.toList_ofList]
    exact trimmed_of_slotText hs h

end StyleFold.BackgroundShorthand
