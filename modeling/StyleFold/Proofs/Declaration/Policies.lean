import StyleFold.Proofs.Declaration.Lookup

/-!
Lookups under different policies and in different lists. Two results agree where they are equal or
the first one is an error that is allowed for, and whatever goes on from results that agree agrees.
-/
namespace StyleFold

variable {α β : Type} {allowed : ConversionError → Prop} {x y : Result α}

/-- The results are equal, unless the first one is an error that is allowed for. -/
def AgreeUnless (allowed : ConversionError → Prop) (x y : Result α) : Prop :=
  (∃ e, allowed e ∧ x = .error e) ∨ x = y

theorem AgreeUnless.refl (x : Result α) : AgreeUnless allowed x x :=
  .inr rfl

theorem AgreeUnless.bind {f g : α → Result β} (h : AgreeUnless allowed x y)
    (hfg : ∀ a, AgreeUnless allowed (f a) (g a)) : AgreeUnless allowed (x >>= f) (y >>= g) := by
  cases h with
  | inl h =>
    obtain ⟨e, he, hx⟩ := h
    exact .inl ⟨e, he, by rw [hx]; rfl⟩
  | inr h =>
    subst h
    cases x with
    | error e => exact .refl _
    | ok a => exact hfg a

theorem AgreeUnless.eq (h : AgreeUnless (fun _ => False) x y) : x = y := by
  cases h with
  | inl h =>
    obtain ⟨e, he, -⟩ := h
    exact he.elim
  | inr h => exact h

namespace Declaration

variable {p q : DuplicatePolicy} {name : String} {ds es : List Declaration}

theorem require_agree (h : AgreeUnless allowed (find p name ds) (find q name es))
    (shorthand : String) :
    AgreeUnless allowed (require p shorthand name ds) (require q shorthand name es) :=
  h.bind fun _ => .refl _

theorem find_congr (h : declaring name ds = declaring name es) (p : DuplicatePolicy) :
    find p name ds = find p name es := by
  rw [find.eq_def, find.eq_def, h]

theorem find_last (name : String) (ds : List Declaration) :
    find .last name ds = find .first name ds.reverse := by
  simp [find, declaring, List.filter_reverse]

theorem length_declaring (name : String) (ds : List Declaration) :
    (declaring name ds).length = (ds.map property).count name := by
  rw [declaring, ← List.countP_eq_length_filter, List.count, List.countP_map]
  rfl

def IsRepetition (ds : List Declaration) (e : ConversionError) : Prop :=
  ∃ name, 2 ≤ (ds.map property).count name ∧ e = .repeatedLonghand name

/-- A lookup fails at a property that is repeated, or else every policy selects the same. -/
theorem find_reject (name : String) (ds : List Declaration) (p : DuplicatePolicy) :
    AgreeUnless (IsRepetition ds) (find .reject name ds) (find p name ds) := by
  have hlength := length_declaring name ds
  rcases h : declaring name ds with _ | ⟨d, _ | ⟨e, rest⟩⟩
  · exact .inr (by cases p <;> simp [find, h])
  · exact .inr (by cases p <;> simp [find, h])
  · have htwo : 2 ≤ (ds.map property).count name := by
      rw [← hlength, h]
      simp
    exact .inl ⟨_, ⟨name, htwo, rfl⟩, by simp [find, h]⟩

theorem declaring_perm (h : ds.Perm es) (hn : (ds.map property).Nodup) (name : String) :
    declaring name ds = declaring name es := by
  have hfilter : (declaring name ds).Perm (declaring name es) := h.filter _
  have hle : (declaring name ds).length ≤ 1 := by
    rw [length_declaring]
    exact List.nodup_iff_count_le_one.mp hn name
  rcases hd : declaring name ds with _ | ⟨d, _ | ⟨e, rest⟩⟩
  · rw [hd] at hfilter
    exact hfilter.nil_eq
  · rw [hd] at hfilter
    exact List.singleton_perm.mp hfilter
  · rw [hd] at hle
    simp at hle

end Declaration
end StyleFold
