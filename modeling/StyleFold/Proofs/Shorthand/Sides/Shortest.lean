import StyleFold.Proofs.Shorthand.Sides

/-!
How the list that four sides collapse to compares with the other lists that stand for them. Sides
never collapse to three values, so that those of which only the right and the left agree take four
values where three would do.
-/
namespace StyleFold.Sides

variable {α : Type*} [DecidableEq α] {l : List α} {s : Sides α}

theorem length_collapse_le_two (h : s.top = s.bottom ∧ s.right = s.left) :
    s.collapse.length ≤ 2 := by
  rw [collapse, if_pos h]
  split <;> simp

theorem length_collapse_eq_four (h : ¬(s.top = s.bottom ∧ s.right = s.left)) :
    s.collapse.length = 4 := by
  rw [collapse, if_neg h]
  rfl

theorem length_collapse_le_four (s : Sides α) : s.collapse.length ≤ 4 := by
  by_cases h : s.top = s.bottom ∧ s.right = s.left
  · exact (length_collapse_le_two h).trans (by decide)
  · exact (length_collapse_eq_four h).le

/-- No list that stands for the sides is shorter, unless it has three values. -/
theorem length_collapse_le (h : ofList? l = some s) (hlength : l.length ≠ 3) :
    s.collapse.length ≤ l.length := by
  match l with
  | [a] =>
    obtain rfl := Option.some.inj h
    simp [collapse]
  | [a, b] =>
    obtain rfl := Option.some.inj h
    exact length_collapse_le_two ⟨rfl, rfl⟩
  | [a, b, c] => exact absurd rfl hlength
  | [a, b, c, d] => exact length_collapse_le_four s
  | [] | _ :: _ :: _ :: _ :: _ :: _ => contradiction

/-- Sides collapse to a list that stands for them. A shorter one stands for them just where it leaves
out a left side that is like the right one, while top and bottom differ. -/
theorem collapse_shortest (s : Sides α) : ofList? s.collapse = some s ∧
    ∀ l, (ofList? l = some s ∧ l.length < s.collapse.length) ↔
      s.right = s.left ∧ s.top ≠ s.bottom ∧ l = [s.top, s.right, s.bottom] := by
  refine ⟨ofList?_collapse s, fun l => ⟨?_, ?_⟩⟩
  · rintro ⟨h, hlt⟩
    have hthree : l.length = 3 := by
      by_contra hne
      exact (length_collapse_le h hne).not_gt hlt
    obtain ⟨a, b, c, rfl⟩ := List.length_eq_three.mp hthree
    obtain rfl := Option.some.inj h
    refine ⟨rfl, fun hopposite => ?_, rfl⟩
    have hle := length_collapse_le_two (s := ⟨a, b, c, b⟩) ⟨hopposite, rfl⟩
    omega
  · obtain ⟨top, right, bottom, left⟩ := s
    rintro ⟨hleft, hne, rfl⟩
    obtain rfl : right = left := hleft
    refine ⟨rfl, ?_⟩
    rw [length_collapse_eq_four fun hopposite => hne hopposite.1]
    exact Nat.lt_succ_self 3

/-- Three values stand for sides that collapse to four. -/
theorem not_collapse_shortest_threeValues :
    ofList? ["1px", "auto", "2px"] = some ⟨"1px", "auto", "2px", "auto"⟩ ∧
      ["1px", "auto", "2px"].length <
        (collapse (⟨"1px", "auto", "2px", "auto"⟩ : Sides String)).length := by
  decide

end StyleFold.Sides
