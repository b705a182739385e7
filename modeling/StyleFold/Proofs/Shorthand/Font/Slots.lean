import StyleFold.Proofs.Pattern.Complete
import StyleFold.Proofs.Pattern.Widen
import StyleFold.Proofs.Shorthand.Font

/-!
What the patterns of the slots of a font have in common. All but that of the family match words
without stops, and gaps within a family are as wide as they like.
-/
namespace StyleFold.FontShorthand
open Text Pattern Value

variable {p q : Pattern} {ps : List Pattern} {c mark : Char} {u v w : List Char} {s : FontSlot}

theorem solid_global : Solid global :=
  .alt (solid_word (by decide)) (solid_word (by decide))

theorem solid_digits : Solid (many1 isDigit) :=
  (solid_char (by decide)).seq (solid_span (by decide))

theorem solid_decimalWithUnit : Solid decimalWithUnit := by
  have hmany : Solid (many isDigit) := solid_span (by decide)
  have hpoint : Solid (symbol '.') := solid_char (by decide)
  have hunit : Solid unit := solid_oneOf (by decide +kernel)
  exact .seq (.alt (solid_digits.seq (hpoint.seq hmany).optional) (hpoint.seq solid_digits))
    hunit.optional

theorem solid_slot (h : s ≠ .family) : Solid (slot s) := by
  cases s with
  | family => exact absurd rfl h
  | style | variant | system => exact .alt (solid_oneOf (by decide +kernel)) solid_global
  | weight => exact .alt (solid_oneOf (by decide +kernel)) (.alt solid_global solid_digits)
  | size => exact .alt (solid_oneOf (by decide +kernel)) (.alt solid_global solid_decimalWithUnit)
  | height => exact .alt (solid_word (by decide)) (.alt solid_global solid_decimalWithUnit)

theorem isFloating_slot (s : FontSlot) : (slot s).isFloating = true := by
  cases s with
  | family => rfl
  | style | variant | system => simp [slot, global, isFloating]
  | weight | size | height =>
    simp [slot, global, Pattern.any, isFloating, many1, many, decimalWithUnit, decimal, unit, symbol]

theorem solid_nameWord : Solid nameWord :=
  (solid_char (by decide)).seq (solid_span (by decide))

theorem loose_quotedName (hstop : isStop mark = false) : Loose (quotedName mark) := by
  have hmark : Solid (symbol mark) := .char fun c hc => by rw [beq_iff_eq.mp hc, hstop]; rfl
  have hgap (c : Char) (hc : isGap c = true) : (c != mark) = true := by
    rw [bne_iff_ne]
    rintro rfl
    rw [isStop_of_isGap hc] at hstop
    contradiction
  have hinside : Loose (many (· != mark)) := .span (fun _ => hgap) (fun _ => hgap)
  exact (Loose.of_solid hmark).seq (hinside.seq (.of_solid hmark))

theorem loose_familyName : Loose familyName :=
  .alt (loose_quotedName (by decide)) (.alt (loose_quotedName (by decide))
    ((Loose.of_solid solid_nameWord).seq (Loose.gaps1.seq (.of_solid solid_nameWord)).star))

/-- With wider gaps the words of a slot are still words of the slot. -/
theorem loose_slot (s : FontSlot) : Loose (slot s) := by
  by_cases h : s = .family
  · subst h
    have hcomma : Solid (symbol ',') := solid_char (by decide)
    have hmore : Loose (Pattern.all [many isGap, symbol ',', many isGap, familyName]) :=
      Loose.gaps.seq ((Loose.of_solid hcomma).seq (Loose.gaps.seq loose_familyName))
    exact .alt (.of_solid solid_global) (loose_familyName.seq hmore.star)
  · exact .of_solid (solid_slot h)

def Footed (w : List Char) : Prop :=
  ∃ c ∈ w.getLast?, isBlank c = false

namespace Footed

theorem of_tame (h : Tame w) : Footed w := by
  have hlast := List.getLast?_eq_some_getLast h.filled
  exact ⟨_, hlast, not_isBlank_of_isTame (h.tame _ (List.mem_of_getLast? hlast))⟩

theorem append (u : List Char) (h : Footed v) : Footed (u ++ v) := by
  obtain ⟨c, hc, hblank⟩ := h
  refine ⟨c, ?_, hblank⟩
  rw [List.getLast?_append_of_ne_nil _ (by rintro rfl; contradiction)]
  exact hc

theorem flatten {vs : List (List Char)} (hu : Footed u) (hvs : ∀ v ∈ vs, Footed v) :
    Footed (u ++ vs.flatten) := by
  induction vs generalizing u with
  | nil => simpa using hu
  | cons v vs ih =>
    obtain ⟨hv, hvs⟩ := List.forall_mem_cons.mp hvs
    rw [List.flatten_cons, ← List.append_assoc]
    exact ih (hv.append u) hvs

end Footed

theorem isTame_nameWord : IsTame nameWord := by
  have hchar {c : Char} (h : (isLetter c || isDigit c || c == '-') = true) : isTame c = true := by
    obtain h | h := Bool.or_eq_true_iff.mp h
    · exact isTame_of_alphanumeric h
    · rw [beq_iff_eq.mp h]
      decide
  refine .of_within (.seq (.char fun c hc => hchar ?_) (.span fun c hc => hchar hc))
    (Filled.char.seq_left _)
  obtain hc | hc := Bool.or_eq_true_iff.mp hc
  · rw [hc, Bool.true_or, Bool.true_or]
  · rw [hc, Bool.or_true]

theorem footed_quotedName (hmark : isBlank mark = false) (h : Language (quotedName mark) w) :
    Footed w := by
  obtain ⟨u, _, rfl, -, v, _, rfl, -, c, rfl, hc⟩ := h
  obtain rfl := beq_iff_eq.mp hc
  exact .append _ (.append _ ⟨c, rfl, hmark⟩)

theorem footed_familyName (h : Language familyName w) : Footed w := by
  obtain h | h | ⟨u, v, rfl, hu, vs, rfl, hvs⟩ := h
  · exact footed_quotedName (by decide) h
  · exact footed_quotedName (by decide) h
  · refine (Footed.of_tame (isTame_nameWord u hu)).flatten fun v hv => ?_
    obtain ⟨x, y, rfl, -, hy⟩ := hvs v hv
    exact .append x (.of_tame (isTame_nameWord y hy))

theorem footed_slot (h : Language (slot s) w) : Footed w := by
  by_cases hs : s = .family
  · subst hs
    obtain h | ⟨u, v, rfl, hu, vs, rfl, hvs⟩ := h
    · exact .of_tame (isTame_global w h)
    · refine (footed_familyName hu).flatten fun v hv => ?_
      obtain ⟨a, _, rfl, -, b, _, rfl, -, c, x, rfl, -, hx⟩ := hvs v hv
      exact .append _ (.append _ (.append _ (footed_familyName hx)))
  · exact .of_tame (isTame_slot hs w h)

theorem isHeaded_slot (s : FontSlot) : IsHeaded (slot s) := by
  by_cases hs : s = .family
  · subst hs
    exact .family
  · exact .of_tame (isTame_slot hs)

theorem starts_slot (s : FontSlot) : Starts (fun c => !isGap c) (slot s) := by
  intro w hw
  obtain ⟨c, r, rfl, hc⟩ := isHeaded_slot s w hw
  refine ⟨c, r, rfl, ?_⟩
  rw [Bool.not_eq_true', ← Bool.not_eq_true]
  intro hgap
  rw [isBlank_of_isGap hgap] at hc
  contradiction

theorem trim_slot (h : Language (slot s) w) : trim w = w := by
  refine trim_eq_self_iff.mpr ⟨?_, ?_⟩
  · obtain ⟨c, r, rfl, hc⟩ := isHeaded_slot s w h
    rintro d ⟨⟩
    exact hc
  · obtain ⟨c, hc, hblank⟩ := footed_slot h
    intro d hd
    obtain rfl := Option.some.inj (hc.symm.trans hd)
    exact hblank

end StyleFold.FontShorthand
