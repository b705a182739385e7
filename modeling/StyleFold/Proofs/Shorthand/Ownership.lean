import StyleFold.Proofs.Converter
import StyleFold.Proofs.Reader.Accepted
import StyleFold.Proofs.Shorthand.Registry

/-!
A shorthand that a converter finds under the name of a declaration owns that declaration, unless the
shorthand writes its own property with capital letters. The readers write all names without them.
-/
namespace StyleFold
open Declaration (lowercase)

variable {r : Registry Shorthand} {c : Converter} {name t owner found : String} {s : Shorthand}
  {reader : Reader} {ds : List Declaration} {e : ConversionError}

namespace Reader

theorem Strict.lowercase_of_collect {l : Text.Location} {is : List Strict.Item}
    (h : Strict.collect l is = .ok ds) : ∀ d ∈ ds, lowercase d.property = d.property := by
  induction is generalizing l ds with
  | nil =>
    cases h
    simp
  | cons i is ih =>
    obtain ⟨o, rest, hi, hrest, rfl⟩ := Strict.collect_cons_eq_ok.mp h
    refine List.forall_mem_append.mpr ⟨fun d hd => ?_, ih hrest⟩
    cases hi with
    | nothing => simp at hd
    | declaration hident hdeclares =>
      cases hdeclares
      obtain rfl := List.mem_singleton.mp hd
      exact Declaration.lowercase_lowercase _

theorem lowercase_of_read (h : reader.read t = .ok ds) :
    ∀ d ∈ ds, lowercase d.property = d.property := by
  cases reader with
  | strict => exact Strict.lowercase_of_collect h
  | lenient =>
    cases h
    intro d hd
    obtain ⟨m, -, rfl⟩ := List.mem_map.mp hd
    exact Declaration.lowercase_lowercase _

theorem Strict.malformed_of_item {l : Text.Location} {i : Strict.Item}
    (h : Strict.item l i = .error e) :
    ∃ flaw source location, e = .malformed flaw source location := by
  simp only [Strict.item] at h
  split at h
  · cases h
  · split at h
    · cases h
    · cases h
      exact ⟨_, _, _, rfl⟩
  · cases h
    exact ⟨_, _, _, rfl⟩
  · cases h
    exact ⟨_, _, _, rfl⟩

theorem Strict.malformed_of_collect {l : Text.Location} {is : List Strict.Item}
    (h : Strict.collect l is = .error e) :
    ∃ flaw source location, e = .malformed flaw source location := by
  induction is generalizing l with
  | nil => cases h
  | cons i is ih =>
    obtain hi | ⟨o, -, h⟩ := bind_eq_error.mp h
    · exact Strict.malformed_of_item hi
    · obtain hrest | ⟨rest, -, h⟩ := bind_eq_error.mp h
      · exact ih hrest
      · cases h

theorem malformed_of_read (h : reader.read t = .error e) :
    ∃ flaw source location, e = .malformed flaw source location := by
  cases reader with
  | strict => exact Strict.malformed_of_collect h
  | lenient => cases h

end Reader

namespace Registry

/-- The registries that come about where every shorthand is registered under its own property. -/
inductive Grown : Registry Shorthand → Prop
  | empty : Grown .empty
  | builtIn (duplicates : DuplicatePolicy) : Grown (.builtIn duplicates)
  | register {r : Registry Shorthand} (h : Grown r) (s : Shorthand) :
      Grown (r.register s.property s).1

/-- Every name leads to a shorthand whose property is that name in some letter case. -/
def Owned (r : Registry Shorthand) : Prop :=
  ∀ name s, r.get? name = some s → lowercase s.property = lowercase name

theorem owned_empty : Owned empty := by
  intro name s h
  cases h

theorem Owned.register (h : r.Owned) (s : Shorthand) : (r.register s.property s).1.Owned := by
  intro name t ht
  rw [get?_register] at ht
  split at ht
  · rename_i hname
    cases ht
    exact hname.symm
  · exact h name t ht

theorem Owned.foldl_register (h : r.Owned) (ss : List Shorthand) :
    (ss.foldl (fun r s => (r.register s.property s).1) r).Owned := by
  induction ss generalizing r with
  | nil => exact h
  | cons s ss ih => exact ih (h.register s)

theorem Grown.owned (h : r.Grown) : r.Owned := by
  induction h with
  | empty => exact owned_empty
  | builtIn duplicates => exact owned_empty.foldl_register (Shorthand.builtIn duplicates)
  | register _ s ih => exact ih.register s

theorem lowercase_of_builtIn {duplicates : DuplicatePolicy}
    (h : (builtIn duplicates).get? name = some s) : lowercase s.property = s.property := by
  have hall : ∀ e ∈ (builtIn duplicates).entries, lowercase e.2.property = e.2.property := by
    cases duplicates <;> decide +kernel
  obtain ⟨e, he, rfl⟩ := Option.map_eq_some_iff.mp h
  exact hall e (List.mem_of_find?_eq_some he)

end Registry

theorem Shorthand.expand_eq_foreign_iff {d : Declaration} :
    s.expand d = .error (.foreignProperty owner found) ↔
      s.property = owner ∧ d.property = found ∧ found ≠ owner := by
  by_cases h : d.property = s.property
  · rw [expand_eq_ok h]
    refine ⟨fun he => absurd he (by simp), fun ⟨hs, hd, hne⟩ => ?_⟩
    exact absurd (hd.symm.trans (h.trans hs)) hne
  · rw [Shorthand.expand, if_neg h, Except.error.injEq, ConversionError.foreignProperty.injEq]
    constructor
    · rintro ⟨rfl, rfl⟩
      exact ⟨rfl, rfl, h⟩
    · rintro ⟨rfl, rfl, -⟩
      exact ⟨rfl, rfl⟩

namespace Converter

theorem expand_eq_foreign_iff : c.expand t = .error (.foreignProperty owner found) ↔
    ∃ d ds s, c.read t = .ok (d :: ds) ∧ c.registry.get? d.property = some s ∧
      s.expand d = .error (.foreignProperty owner found) := by
  rw [Converter.expand]
  cases hread : c.read t with
  | error e =>
    obtain ⟨flaw, source, location, rfl⟩ := Reader.malformed_of_read hread
    simp [bind, Except.bind]
  | ok ds =>
    cases ds with
    | nil => simp [bind, Except.bind]
    | cons d ds =>
      cases hs : c.registry.get? d.property with
      | none => simp [bind, Except.bind, expandDeclaration, hs]
      | some s =>
        cases he : s.expand d with
        | error e => simp [bind, Except.bind, expandDeclaration, hs, he, Except.map]
        | ok ls => simp [bind, Except.bind, expandDeclaration, hs, he, Except.map]

/-- Whatever the settings are, a conversion is refused just where the shorthand under the name of
the first declaration writes its own property with capital letters. Where none does, no text is
refused. -/
theorem expand_foreign_iff (h : r.Grown) (settings : Settings) :
    (∀ t owner found, (Converter.mk settings r).expand t = .error (.foreignProperty owner found) ↔
      ∃ d ds s, settings.reader.read t = .ok (d :: ds) ∧ r.get? d.property = some s ∧
        s.property = owner ∧ d.property = found ∧ found = lowercase owner ∧ found ≠ owner) ∧
      ((∀ name s, r.get? name = some s → lowercase s.property = s.property) → ∀ t owner found,
        (Converter.mk settings r).expand t ≠ .error (.foreignProperty owner found)) := by
  have hforeign {t owner found}
      (he : (Converter.mk settings r).expand t = .error (.foreignProperty owner found)) :
      ∃ d ds s, settings.reader.read t = .ok (d :: ds) ∧ r.get? d.property = some s ∧
        s.property = owner ∧ d.property = found ∧ found = lowercase owner ∧ found ≠ owner := by
    obtain ⟨d, ds, s, hread, hs, he⟩ := expand_eq_foreign_iff.mp he
    obtain ⟨rfl, rfl, hne⟩ := Shorthand.expand_eq_foreign_iff.mp he
    have hlower := Reader.lowercase_of_read hread d List.mem_cons_self
    exact ⟨d, ds, s, hread, hs, rfl, rfl, hlower.symm.trans (h.owned d.property s hs).symm, hne⟩
  refine ⟨fun t owner found => ⟨hforeign, ?_⟩, fun hlower t owner found he => ?_⟩
  · rintro ⟨d, ds, s, hread, hs, howner, hfound, -, hne⟩
    have he := Shorthand.expand_eq_foreign_iff.mpr ⟨howner, hfound, hne⟩
    exact expand_eq_foreign_iff.mpr ⟨d, ds, s, hread, hs, he⟩
  · obtain ⟨d, ds, s, -, hs, rfl, -, hfound, hne⟩ := hforeign he
    exact hne (hfound.trans (hlower d.property s hs))

def capitalMargin : Shorthand :=
  ⟨.sides "Margin" .behind, .first⟩

def capitalMargins : Registry Shorthand :=
  (Registry.empty.register capitalMargin.property capitalMargin).1

theorem expand_foreign_iff_margin : capitalMargins.Grown ∧
    (Converter.mk ⟨.lenient, .first⟩ capitalMargins).expand "margin: 1px" =
      .error (.foreignProperty "Margin" "margin") ∧
    (Registry.builtIn .first).Grown ∧
    (∀ name s, (Registry.builtIn .first).get? name = some s → lowercase s.property = s.property) ∧
    ∀ t owner found, (Converter.mk ⟨.strict, .first⟩ (.builtIn .first)).expand t ≠
      .error (.foreignProperty owner found) := by
  have hcapital : capitalMargins.Grown := .register .empty capitalMargin
  have hbuiltIn : (Registry.builtIn .first).Grown := .builtIn .first
  have hlower (name : String) (s : Shorthand) (hs : (Registry.builtIn .first).get? name = some s) :
      lowercase s.property = s.property := Registry.lowercase_of_builtIn hs
  refine ⟨hcapital, ?_, hbuiltIn, hlower, (expand_foreign_iff hbuiltIn ⟨.strict, .first⟩).2 hlower⟩
  exact ((expand_foreign_iff hcapital ⟨.lenient, .first⟩).1 _ _ _).mpr
    ⟨⟨"margin", "1px", false⟩, [], capitalMargin, by decide, by decide, rfl, rfl, by decide,
      by decide⟩

/-- A shorthand that is registered under its own property need not take what is found for it. -/
theorem not_owned_capital : ¬∀ c : Converter, c.registry.Grown →
    ∀ t owner found, c.expand t ≠ .error (.foreignProperty owner found) := by
  intro h
  have hcapital : capitalMargins.Grown := .register .empty capitalMargin
  exact h ⟨⟨.strict, .first⟩, capitalMargins⟩ hcapital "margin: 1px" "Margin" "margin" (by decide)

end Converter
end StyleFold
