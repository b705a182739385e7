import StyleFold.Proofs.Declaration.Policies
import StyleFold.Shorthand.Basic

/-!
A shorthand knows the longhands that it is made of by their names alone. From lookups that agree the
conversions make results that agree, and so the policies differ only where a property is repeated,
and neither the places of the longhands nor what stands between them makes a difference.
-/
namespace StyleFold
open Declaration

variable {allowed : ConversionError → Prop} {p q : DuplicatePolicy} {ds es : List Declaration}

def LookupsAgree (allowed : ConversionError → Prop) (names : List String)
    (p q : DuplicatePolicy) (ds es : List Declaration) : Prop :=
  ∀ name ∈ names, AgreeUnless allowed (find p name ds) (find q name es)

namespace SidesShorthand

variable {property : String} {naming : LonghandNaming}

theorem selected_agree {sides : List Side}
    (h : LookupsAgree allowed (sides.map (naming.longhand property)) p q ds es) :
    AgreeUnless allowed (selected p property naming ds sides)
      (selected q property naming es sides) := by
  induction sides with
  | nil => exact .refl _
  | cons side sides ih =>
    rw [LookupsAgree, List.map_cons, List.forall_mem_cons] at h
    refine (require_agree h.1 property).bind fun d => ?_
    exact (ih h.2).bind fun _ => .refl _

theorem collapse_agree (hlength : ds.length = es.length)
    (h : LookupsAgree allowed (Side.all.map (naming.longhand property)) p q ds es) :
    AgreeUnless allowed (collapse p property naming ds) (collapse q property naming es) := by
  rw [collapse, collapse, hlength]
  by_cases hfour : es.length = 4
  · rw [if_pos hfour, if_pos hfour]
    exact (selected_agree h).bind fun _ => .refl _
  · rw [if_neg hfour, if_neg hfour]
    exact .refl _

end SidesShorthand

namespace BorderShorthand

theorem selected_agree {parts : List BorderPart}
    (h : LookupsAgree allowed (parts.map BorderPart.longhand) p q ds es) :
    AgreeUnless allowed (selected p ds parts) (selected q es parts) := by
  induction parts with
  | nil => exact .refl _
  | cons part parts ih =>
    rw [LookupsAgree, List.map_cons, List.forall_mem_cons] at h
    refine h.1.bind fun found => ?_
    cases found with
    | none => exact ih h.2
    | some d =>
      dsimp only
      split
      · exact (ih h.2).bind fun _ => .refl _
      · exact .refl _

theorem collapse_agree
    (h : LookupsAgree allowed (BorderPart.all.map BorderPart.longhand) p q ds es) :
    AgreeUnless allowed (collapse p ds) (collapse q es) :=
  (selected_agree h).bind fun _ => .refl _

end BorderShorthand

namespace BackgroundShorthand

theorem selected_agree {slots : List BackgroundSlot}
    (h : LookupsAgree allowed (slots.map BackgroundSlot.longhand) p q ds es) :
    AgreeUnless allowed (selected p ds slots) (selected q es slots) := by
  induction slots with
  | nil => exact .refl _
  | cons slot slots ih =>
    rw [LookupsAgree, List.map_cons, List.forall_mem_cons] at h
    refine (require_agree h.1 property).bind fun d => ?_
    exact (ih h.2).bind fun _ => .refl _

theorem collapse_agree
    (h : LookupsAgree allowed (BackgroundSlot.all.map BackgroundSlot.longhand) p q ds es) :
    AgreeUnless allowed (collapse p ds) (collapse q es) :=
  (selected_agree h).bind fun _ => .refl _

end BackgroundShorthand

namespace FontShorthand

/-- The line height is looked up under a second name where the first one is absent. -/
theorem declared_agree {slot : FontSlot}
    (h : LookupsAgree allowed [slot.longhand, "line-height"] p q ds es) :
    AgreeUnless allowed (declared p ds slot) (declared q es slot) := by
  rw [LookupsAgree, List.forall_mem_cons, List.forall_mem_singleton] at h
  cases slot with
  | height =>
    refine h.1.bind fun found => ?_
    cases found with
    | some d => exact .refl _
    | none => exact h.2.bind fun _ => .refl _
  | style | variant | weight | size | family | system => exact require_agree h.1 property

theorem selected_agree {slots : List FontSlot}
    (h : LookupsAgree allowed (slots.map FontSlot.longhand ++ ["line-height"]) p q ds es) :
    AgreeUnless allowed (selected p ds slots) (selected q es slots) := by
  induction slots with
  | nil => exact .refl _
  | cons slot slots ih =>
    rw [LookupsAgree, List.map_cons, List.cons_append, List.forall_mem_cons] at h
    have hslot : LookupsAgree allowed [slot.longhand, "line-height"] p q ds es :=
      List.forall_mem_cons.mpr ⟨h.1, fun name hname => h.2 name (List.mem_append_right _ hname)⟩
    refine (declared_agree hslot).bind fun d => ?_
    exact (ih h.2).bind fun _ => .refl _

theorem collapse_agree
    (h : LookupsAgree allowed (FontSlot.all.map FontSlot.longhand ++ ["line-height"]) p q ds es) :
    AgreeUnless allowed (collapse p ds) (collapse q es) :=
  (selected_agree h).bind fun _ => .refl _

end FontShorthand

def Family.sought : Family → List String
  | sides property naming => Side.all.map (naming.longhand property)
  | border => BorderPart.all.map BorderPart.longhand
  | background => BackgroundSlot.all.map BackgroundSlot.longhand
  | font => FontSlot.all.map FontSlot.longhand ++ ["line-height"]

def Family.isCounting : Family → Bool
  | sides _ _ => true
  | border | background | font => false

namespace Shorthand

variable {family : Family}

theorem collapse_agree (hlength : family.isCounting = true → ds.length = es.length)
    (h : LookupsAgree allowed family.sought p q ds es) :
    AgreeUnless allowed ((Shorthand.mk family p).collapse ds)
      ((Shorthand.mk family q).collapse es) := by
  cases family with
  | sides property naming => exact SidesShorthand.collapse_agree (hlength rfl) h
  | border => exact BorderShorthand.collapse_agree h
  | background => exact BackgroundShorthand.collapse_agree h
  | font => exact FontShorthand.collapse_agree h

/-- Under the policy that rejects repeated properties a conversion fails at one of them, or else it
gives what it gives under every policy. -/
theorem collapse_reject (family : Family) (ds : List Declaration) (p : DuplicatePolicy) :
    AgreeUnless (IsRepetition ds) ((Shorthand.mk family .reject).collapse ds)
      ((Shorthand.mk family p).collapse ds) :=
  collapse_agree (fun _ => rfl) fun name _ => find_reject name ds p

theorem collapse_congr (s : Shorthand) (hlength : s.family.isCounting = true → ds.length = es.length)
    (h : ∀ name ∈ s.family.sought, declaring name ds = declaring name es) :
    s.collapse ds = s.collapse es :=
  (collapse_agree hlength fun name hname => .inr (find_congr (h name hname) s.duplicates)).eq

/-- The last declarations count as the first ones do in the reversed list. Where repeated properties
are rejected, either one of them is named or no policy makes a difference. -/
theorem collapse_policies (family : Family) (ds : List Declaration) :
    (Shorthand.mk family .last).collapse ds = (Shorthand.mk family .first).collapse ds.reverse ∧
      ((∃ name, 2 ≤ (ds.map Declaration.property).count name ∧
          (Shorthand.mk family .reject).collapse ds = .error (.repeatedLonghand name)) ∨
        (Shorthand.mk family .reject).collapse ds = (Shorthand.mk family .first).collapse ds ∧
          (Shorthand.mk family .reject).collapse ds = (Shorthand.mk family .last).collapse ds) := by
  constructor
  · have hlength : ds.length = ds.reverse.length := List.length_reverse.symm
    exact (collapse_agree (fun _ => hlength) fun name _ => .inr (find_last name ds)).eq
  · cases collapse_reject family ds .first with
    | inl h =>
      obtain ⟨e, ⟨name, hname, rfl⟩, hreject⟩ := h
      exact .inl ⟨name, hname, hreject⟩
    | inr hfirst =>
      cases collapse_reject family ds .last with
      | inl h =>
        obtain ⟨e, ⟨name, hname, rfl⟩, hreject⟩ := h
        exact .inl ⟨name, hname, hreject⟩
      | inr hlast => exact .inr ⟨hfirst, hlast⟩

/-- Lists that hold the same declarations of every name sought collapse in the same way, and so do
two orders of a list that repeats no property. -/
theorem collapse_by_name (s : Shorthand) (ds es : List Declaration) :
    ((s.family.isCounting = true → ds.length = es.length) →
        (∀ name ∈ s.family.sought, declaring name ds = declaring name es) →
          s.collapse ds = s.collapse es) ∧
      (ds.Perm es → (ds.map Declaration.property).Nodup → s.collapse ds = s.collapse es) := by
  constructor
  · exact s.collapse_congr
  · intro h hn
    exact s.collapse_congr (fun _ => h.length_eq) fun name _ => declaring_perm h hn name

/-- A width and two styles. -/
def styledTwice : List Declaration :=
  [⟨"border-style", "solid", false⟩, ⟨"color", "red", true⟩, ⟨"border-width", "1px", false⟩,
    ⟨"border-style", "dotted", false⟩]

/-- The same width and styles with the width in front and others between them. -/
def styledTwiceApart : List Declaration :=
  [⟨"border-width", "1px", false⟩, ⟨"border-style", "solid", false⟩, ⟨"margin", "0", true⟩,
    ⟨"border-style", "dotted", false⟩, ⟨"margin", "1px", false⟩]

def marginSides : List Declaration :=
  [⟨"margin-top", "1px", true⟩, ⟨"margin-right", "2px", true⟩, ⟨"margin-bottom", "3px", true⟩,
    ⟨"margin-left", "4px", true⟩]

theorem collapse_by_name_styledTwice :
    (∀ name ∈ Family.border.sought, declaring name styledTwice = declaring name styledTwiceApart) ∧
      (Shorthand.mk .border .last).collapse styledTwice =
        (Shorthand.mk .border .last).collapse styledTwiceApart ∧
      marginSides.Perm marginSides.reverse ∧ (marginSides.map Declaration.property).Nodup ∧
      (Shorthand.mk (.sides "margin" .behind) .reject).collapse marginSides =
        (Shorthand.mk (.sides "margin" .behind) .reject).collapse marginSides.reverse := by
  have hsought : ∀ name ∈ Family.border.sought,
      declaring name styledTwice = declaring name styledTwiceApart := by decide
  have hperm : marginSides.Perm marginSides.reverse := marginSides.reverse_perm.symm
  have hnodup : (marginSides.map Declaration.property).Nodup := by decide
  exact ⟨hsought, (collapse_by_name ⟨.border, .last⟩ _ _).1 (by decide) hsought, hperm, hnodup,
    (collapse_by_name ⟨.sides "margin" .behind, .reject⟩ _ _).2 hperm hnodup⟩

end Shorthand
end StyleFold
