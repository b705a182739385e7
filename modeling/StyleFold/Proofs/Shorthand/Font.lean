import StyleFold.Proofs.Pattern.Tame
import StyleFold.Proofs.Reader.Reread
import StyleFold.Shorthand.Font

/-!
The longhands of a font that is a value of its own. Its family is what the value ends with, and the
texts of all the other slots are tame.
-/
namespace StyleFold.FontShorthand
open Text Lexeme Value Pattern Reader.Strict

variable {n : Nat} {p q : Pattern} {accepts : Char → Bool} {v w : List Char} {m : Cursor}
  {s : FontSlot}

theorem isTame_global : IsTame global :=
  .alt (.word (by decide)) (.word (by decide))

theorem isTame_slot (h : s ≠ .family) : IsTame (slot s) := by
  cases s with
  | family => exact absurd rfl h
  | style | variant | system => exact .alt (.oneOf (by decide +kernel)) isTame_global
  | weight => exact .alt (.oneOf (by decide +kernel)) (.alt isTame_global .digits)
  | size => exact .alt (.oneOf (by decide +kernel)) (.alt isTame_global .decimalWithUnit)
  | height => exact .alt (.word (by decide)) (.alt isTame_global .decimalWithUnit)

@[simp] theorem subgroups_global : subgroups global = [] := by
  simp [global, subgroups]

@[simp] theorem subgroups_slot (s : FontSlot) : subgroups (slot s) = [] := by
  cases s with
  | family => rfl
  | style | variant | system => simp [slot, subgroups]
  | weight | size | height => simp [slot, Pattern.any, subgroups, many1, many]

theorem subgroups_value : subgroups value = FontSlot.all.map fun s => (s.group, slot s) := by
  simp [value, FontSlot.all, FontSlot.group, leading, slotGroup, Pattern.all, subgroups, many1,
    many, symbol]

theorem language_of_group (hm : match? n value true v = some m)
    (hw : m.group? s.group = some w) : Language (slot s) w := by
  obtain ⟨q, hq, hlang, -⟩ := (went_of_match? hm).group hw
  rw [subgroups_value] at hq
  obtain ⟨t, -, ht⟩ := List.mem_map.mp hq
  obtain ⟨hgroup, rfl⟩ := Prod.mk.inj ht
  obtain rfl : t = s := by
    revert hgroup
    cases t <;> cases s <;> simp [FontSlot.group]
  exact hlang

theorem isMild_slot (h : s ≠ .family) : Within isMild (slot s) :=
  fun w hw c hc => isMild_of_isTame ((isTame_slot h w hw).tame c hc)

def beforeFamily : List Pattern :=
  [leading .style, leading .variant, leading .weight, slotGroup .size,
    optional (Pattern.all [many isGap, symbol '/', many isGap, slotGroup .height])]

theorem isMild_beforeFamily : Within isMild (Pattern.all beforeFamily) := by
  have hgap : Within isMild (many isGap) := .span fun c => isMild_of_isGap
  have hleading {s : FontSlot} (h : s ≠ .family) : Within isMild (leading s) :=
    (Within.seq (isMild_slot h) (.many1 fun c => isMild_of_isGap)).optional
  have hslash : Within isMild (symbol '/') := .char fun c hc => by
    rw [beq_iff_eq.mp hc]
    decide
  have hheight : Within isMild (slotGroup .height) := isMild_slot (s := .height) (by decide)
  refine .all ?_
  simp only [beforeFamily, List.forall_mem_cons, List.not_mem_nil, false_implies, implies_true,
    and_true]
  exact ⟨hleading (by decide), hleading (by decide), hleading (by decide), isMild_slot (by decide),
    (hgap.seq (hslash.seq (hgap.seq hheight))).optional⟩

def IsHeaded (p : Pattern) : Prop :=
  ∀ w, Language p w → ∃ c r, w = c :: r ∧ isBlank c = false

namespace IsHeaded

theorem of_tame (h : IsTame p) : IsHeaded p := by
  intro w hw
  obtain ⟨c, r, rfl⟩ := List.exists_cons_of_ne_nil (h w hw).filled
  exact ⟨c, r, rfl, not_isBlank_of_isTame ((h _ hw).tame c List.mem_cons_self)⟩

theorem char (h : ∀ c, accepts c = true → isBlank c = false) : IsHeaded (char accepts) := by
  rintro w ⟨c, rfl, hc⟩
  exact ⟨c, [], rfl, h c hc⟩

theorem seq_left (h : IsHeaded p) (q : Pattern) : IsHeaded (seq p q) := by
  rintro w ⟨u, v, rfl, hu, -⟩
  obtain ⟨c, r, rfl, hc⟩ := h u hu
  exact ⟨c, r ++ v, rfl, hc⟩

theorem alt (hp : IsHeaded p) (hq : IsHeaded q) : IsHeaded (alt p q) :=
  fun w hw => hw.elim (hp w) (hq w)

theorem symbol {c : Char} (h : isBlank c = false) : IsHeaded (symbol c) :=
  char fun d hd => by rwa [beq_iff_eq.mp hd]

theorem familyName : IsHeaded familyName := by
  have hletter : IsHeaded (Pattern.char fun c => isLetter c || c == '-') := char fun c hc => by
    obtain hc | hc := Bool.or_eq_true_iff.mp hc
    · exact not_isBlank_of_isTame (isTame_of_isLetter hc)
    · rw [beq_iff_eq.mp hc]
      decide
  exact alt ((symbol (by decide)).seq_left _) (alt ((symbol (by decide)).seq_left _)
    ((hletter.seq_left _).seq_left _))

theorem family : IsHeaded (slot .family) :=
  alt (of_tame isTame_global) (familyName.seq_left _)

end IsHeaded

theorem exists_front {c d : Cursor}
    (h : d ∈ outcomes n (Pattern.all (beforeFamily ++ [many1 isGap, slotGroup .family])) c)
    (hw : d.group? FontSlot.family.group = some w) : ∃ front, c.rest = front ++ (w ++ d.rest) ∧
      (∀ x ∈ front, isMild x = true) ∧ ∃ x ∈ front.getLast?, isGap x = true := by
  obtain ⟨e, he, hfamily⟩ : ∃ e ∈ outcomes n (Pattern.all (beforeFamily ++ [many1 isGap])) c,
      d ∈ outcomes n (slotGroup .family) e :=
    (mem_outcomes_all_concat (List.cons_ne_nil _ [_, _, _, _, _])).mp h
  obtain ⟨⟨u, hu, hlang⟩, -⟩ := went_of_mem he
  obtain ⟨x, -, rfl, hx, -, z, rfl, ⟨a, rfl, ha⟩, hz⟩ :=
    (language_all_concat (List.cons_ne_nil _ [_, _, _, _])).mp hlang
  obtain ⟨w', hw', -, hrest⟩ := exists_group?_of_mem hfamily
  obtain rfl : w' = w := Option.some.inj (hw'.symm.trans hw)
  have hgap : ∀ b ∈ [a] ++ z, isGap b = true := List.forall_mem_cons.mpr ⟨ha, hz⟩
  refine ⟨x ++ ([a] ++ z), by rw [hu, hrest], List.forall_mem_append.mpr
    ⟨isMild_beforeFamily x hx, fun b hb => isMild_of_isGap (hgap b hb)⟩,
    ([a] ++ z).getLast (by simp), ?_, hgap _ (List.getLast_mem _)⟩
  rw [List.getLast?_append_of_ne_nil _ (by simp)]
  exact List.getLast?_eq_some_getLast _

/-- The family is what the value ends with, behind a mild text that ends with a gap. -/
theorem exists_before_family (hm : match? n value true v = some m)
    (hw : m.group? FontSlot.family.group = some w) : ∃ pre gap, v = pre ++ w ++ gap ∧
      (∀ c ∈ pre, isMild c = true) ∧ (∃ c ∈ pre.getLast?, isGap c = true) ∧
        ∀ c ∈ gap, isGap c = true := by
  rw [match?_eq_head?] at hm
  obtain ⟨c₀, hstart, hrest⟩ := mem_outcomes_seq.mp (List.mem_of_head? hm)
  obtain ⟨c₁, hlead, hrest⟩ := mem_outcomes_seq.mp hrest
  obtain ⟨c₂, hslots, hrest⟩ := mem_outcomes_seq.mp hrest
  obtain ⟨c₃, htrail, hstop⟩ := mem_outcomes_seq.mp hrest
  obtain rfl : c₀ = ⟨true, v, []⟩ := by simpa [outcomes] using hstart
  obtain ⟨hend, rfl⟩ : c₃.rest = [] ∧ m = c₃ := by
    change m ∈ outcomes n endOfText c₃ at hstop
    simpa [outcomes] using hstop
  obtain ⟨⟨lead, hv, hgaps⟩, -⟩ := went_of_mem hlead
  obtain ⟨⟨gap, hgap, hgaps'⟩, -⟩ := went_of_mem htrail
  have hgroup : m.group? FontSlot.family.group = c₂.group? FontSlot.family.group := by
    rw [Cursor.group?, (went_of_mem htrail).groups_eq rfl, Cursor.group?]
  rw [hgroup] at hw
  obtain hslots | hsystem := mem_outcomes_alt.mp hslots
  · obtain ⟨front, hfront, hmild, a, ha, hlast⟩ := exists_front hslots hw
    dsimp only at hv
    rw [hfront, hgap, hend] at hv
    refine ⟨lead ++ front, gap, by simp [hv], List.forall_mem_append.mpr
      ⟨fun d hd => isMild_of_isGap (hgaps d hd), hmild⟩, ⟨a, ?_, hlast⟩, hgaps'⟩
    rw [List.getLast?_append, Option.mem_def.mp ha]
    rfl
  · -- A system font leaves the group of the family empty.
    obtain ⟨e, he, rfl⟩ := mem_outcomes_group.mp hsystem
    have hgroups := (went_of_mem he).groups_eq (subgroups_slot .system)
    rw [(went_of_mem hlead).groups_eq rfl] at hgroups
    simp [Cursor.group?, hgroups, FontSlot.group] at hw

theorem kept_of_group (hspaces : ∀ c ∈ v, isBlank c = true → isSpace c = true)
    (hv : Contained v) (htrim : trim v = v) (hm : match? n value true v = some m)
    (hw : m.group? s.group = some w) : Trimmed w ∧ Contained w := by
  have hlang := language_of_group hm hw
  by_cases hs : s = .family
  · subst hs
    obtain ⟨c, r, rfl, hc⟩ := IsHeaded.family w hlang
    obtain ⟨pre, gap, rfl, hpre, hlast, hgap⟩ := exists_before_family hm hw
    have hends := (trim_eq_self_iff.mp htrim).2
    obtain rfl : gap = [] := by
      by_contra hne
      rw [List.getLast?_append_of_ne_nil _ hne, List.getLast?_eq_some_getLast hne] at hends
      have := hends _ rfl
      rw [isBlank_of_isGap (hgap _ (List.getLast_mem hne))] at this
      contradiction
    rw [List.append_nil] at hv hends hspaces
    obtain ⟨d, hd, hdgap⟩ := hlast
    have hspace : isSpace d = true :=
      hspaces d (List.mem_append_left _ (List.mem_of_getLast? hd)) (isBlank_of_isGap hdgap)
    have hhead : (c :: r).takeWhile isSpace = [] :=
      List.takeWhile_cons_of_neg (by simp [not_isSpace_of_not_isBlank hc])
    have hcontained := contained_behind hv hpre ⟨d, hd, hspace⟩ hhead
    rw [List.getLast?_append_of_ne_nil _ (List.cons_ne_nil c r)] at hends
    refine ⟨⟨List.cons_ne_nil c r, trim_eq_self_iff.mpr ⟨?_, hends⟩, hcontained.plain⟩, hcontained⟩
    rintro d ⟨⟩
    exact hc
  · have htame := isTame_slot hs w hlang
    exact ⟨htame.component.trimmed, htame.contained⟩

theorem kept_of_mem_longhands {value : String} {d : Declaration}
    (hspaces : ∀ c ∈ value.toList, isBlank c = true → isSpace c = true)
    (hv : Contained value.toList) (htrim : trim value.toList = value.toList)
    (hd : d ∈ longhands value) :
    isNamed d.property.toList = true ∧ Trimmed d.value.toList ∧ Contained d.value.toList := by
  rw [longhands] at hd
  split at hd
  · cases hd
  · rename_i m hm
    obtain ⟨s, -, rfl⟩ := List.mem_map.mp hd
    have hnamed : isNamed (Declaration.lowercase s.longhand).toList = true := by
      cases s <;> decide
    refine ⟨hnamed, ?_⟩
    change Trimmed (slotValue m s).toList ∧ Contained (slotValue m s).toList
    rw [slotValue]
    split
    · rename_i w hw
      rw [String.toList_ofList]
      exact kept_of_group hspaces hv htrim hm hw
    · exact ⟨tame_initial.component.trimmed, tame_initial.contained⟩

end StyleFold.FontShorthand
