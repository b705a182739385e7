import StyleFold.Declaration.Lookup
import Mathlib

/-! Lists with one declaration of each property, and lists that share a priority. -/
namespace StyleFold.Declaration

variable {policy : DuplicatePolicy} {name : String} {d : Declaration} {ds : List Declaration}
  {important : Bool}

theorem declaring_eq_nil (h : name ∉ ds.map property) : declaring name ds = [] :=
  List.filter_eq_nil_iff.mpr fun d hd heq => h (List.mem_map.mpr ⟨d, hd, by simpa using heq⟩)

theorem declaring_eq_singleton (hn : (ds.map property).Nodup) (hd : d ∈ ds) :
    declaring d.property ds = [d] := by
  induction ds with
  | nil => simp at hd
  | cons e ds ih =>
    obtain ⟨he, hn⟩ := List.nodup_cons.mp (List.map_cons ▸ hn)
    obtain rfl | hd := List.mem_cons.mp hd
    · rw [declaring, List.filter_cons_of_pos (by simp), ← declaring, declaring_eq_nil he]
    · have hne : e.property ≠ d.property := fun heq => he (heq ▸ List.mem_map_of_mem hd)
      rw [declaring, List.filter_cons_of_neg (by simpa using hne), ← declaring, ih hn hd]

theorem find_of_mem (hn : (ds.map property).Nodup) (hd : d ∈ ds) :
    find policy d.property ds = .ok (some d) := by
  rw [find.eq_def, declaring_eq_singleton hn hd]
  cases policy <;> rfl

theorem find_of_not_mem (h : name ∉ ds.map property) : find policy name ds = .ok none := by
  rw [find.eq_def, declaring_eq_nil h]
  cases policy <;> rfl

theorem checkPriority_eq_ok (h : ∀ d ∈ ds, d.important = important) (shorthand : String) :
    checkPriority shorthand important ds = .ok important := by
  induction ds with
  | nil => rfl
  | cons d ds ih =>
    rw [checkPriority, if_pos (h d List.mem_cons_self)]
    exact ih fun e he => h e (List.mem_cons_of_mem _ he)

theorem sharedPriority_eq_ok (h : ∀ d ∈ ds, d.important = important) (hne : ds ≠ [])
    (shorthand : String) : sharedPriority shorthand ds = .ok important := by
  obtain ⟨d, ds, rfl⟩ := List.exists_cons_of_ne_nil hne
  rw [sharedPriority, h d List.mem_cons_self]
  exact checkPriority_eq_ok (fun e he => h e (List.mem_cons_of_mem _ he)) shorthand

end StyleFold.Declaration
