import StyleFold.Converter
import Mathlib

/-! What a converter makes of a text, given what it reads in it. -/
namespace StyleFold
open Declaration

variable {c : Converter} {policy : DuplicatePolicy} {s : Shorthand} {t : String}
  {d : Declaration} {ds longhands : List Declaration}

theorem Registry.get?_builtIn (h : s ∈ Shorthand.builtIn policy) :
    (builtIn policy).get? s.property = some s := by
  have hall : ∀ s ∈ Shorthand.builtIn policy, (builtIn policy).get? s.property = some s := by
    cases policy <;> decide +kernel
  exact hall s h

theorem Converter.get?_ofSettings (r : Reader) (h : s ∈ Shorthand.builtIn policy) :
    (ofSettings ⟨r, policy⟩).registry.get? s.property = some s := by
  simp only [ofSettings]
  exact Registry.get?_builtIn h

theorem Converter.expand_eq_ok (hread : c.read t = .ok (d :: ds))
    (hs : c.registry.get? d.property = some s) (he : s.expand d = .ok longhands) :
    c.expand t = .ok (some (printAll longhands)) := by
  simp [Converter.expand, hread, expandDeclaration, hs, he, bind, Except.bind, Except.map]

theorem Converter.collapse_eq_ok {name : String} (hread : c.read t = .ok ds)
    (hs : c.registry.get? name = some s) (hc : s.collapse ds = .ok d) :
    c.collapse name t = .ok (some (printAll [d])) := by
  simp [Converter.collapse, hread, collapseDeclarations, hs, hc, bind, Except.bind, Except.map]

theorem Shorthand.expand_eq_ok (h : d.property = s.property) :
    s.expand d = .ok ((s.family.longhands d.value).map fun l => l.withPriority d.important) :=
  if_pos h

theorem Shorthand.duplicates_of_mem (h : s ∈ builtIn policy) : s.duplicates = policy := by
  revert h
  simp only [builtIn, List.mem_cons, List.not_mem_nil, or_false]
  rintro (rfl | rfl | rfl | rfl | rfl | rfl | rfl | rfl) <;> rfl

theorem Shorthand.property_of_expand (h : s.expand d = .ok ds) : d.property = s.property := by
  by_contra hne
  rw [expand, if_neg hne] at h
  contradiction

end StyleFold
