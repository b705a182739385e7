import StyleFold.Pattern.Basic

/-!
All the places that a pattern can lead to, in the order in which they are tried. Running a pattern
gives the first result among them.
-/
namespace StyleFold.Pattern

def spanOutcomes (eager : Bool) (accepts : Char → Bool)
    (groups : List (Nat × List Char × List Char)) : (atStart : Bool) → List Char → List Cursor
  | atStart, [] => [⟨atStart, [], groups⟩]
  | atStart, x :: s =>
    if accepts x then
      if eager then spanOutcomes eager accepts groups false s ++ [⟨atStart, x :: s, groups⟩]
      else ⟨atStart, x :: s, groups⟩ :: spanOutcomes eager accepts groups false s
    else [⟨atStart, x :: s, groups⟩]

def starOutcomes (step : Cursor → List Cursor) : (n : Nat) → Cursor → List Cursor
  | 0, c => [c]
  | n + 1, c => (step c).flatMap (starOutcomes step n) ++ [c]

def outcomes (n : Nat) : Pattern → Cursor → List Cursor
  | empty, c => [c]
  | startOfText, c => if c.first then [c] else []
  | endOfText, c => if c.rest.isEmpty then [c] else []
  | char accepts, c =>
    match c.rest with
    | [] => []
    | x :: s => if accepts x then [⟨false, s, c.groups⟩] else []
  | span eager accepts, c => spanOutcomes eager accepts c.groups c.first c.rest
  | seq p q, c => (outcomes n p c).flatMap (outcomes n q)
  | alt p q, c => outcomes n p c ++ outcomes n q c
  | star p, c => starOutcomes (outcomes n p) n c
  | group index p, c =>
    (outcomes n p c).map fun d => ⟨d.first, d.rest, (index, c.rest, d.rest) :: d.groups⟩

theorem findSome?_flatMap {α β γ : Type} (l : List α) (f : α → List β) (g : β → Option γ) :
    (l.flatMap f).findSome? g = l.findSome? fun a => (f a).findSome? g := by
  induction l with
  | nil => rfl
  | cons a l ih =>
    rw [List.flatMap_cons, List.findSome?_append, ih, List.findSome?_cons]
    cases (f a).findSome? g <;> rfl

theorem runSpan_eq_findSome? {α : Type} (eager : Bool) (accepts : Char → Bool)
    (groups : List (Nat × List Char × List Char)) (next : Continuation α) (atStart : Bool)
    (s : List Char) :
    runSpan eager accepts groups next atStart s =
      (spanOutcomes eager accepts groups atStart s).findSome? next := by
  induction s generalizing atStart with
  | nil => simp [runSpan, spanOutcomes]
  | cons x s ih =>
    rw [runSpan, spanOutcomes]
    split
    · split
      · simp [ih, List.findSome?_append]
      · rw [ih, List.findSome?_cons]
        cases next ⟨atStart, x :: s, groups⟩ <;> rfl
    · simp

theorem runStar_eq_findSome? {α : Type} (step : Cursor → Continuation α → Option α)
    (places : Cursor → List Cursor) (next : Continuation α)
    (h : ∀ c (k : Continuation α), step c k = (places c).findSome? k) (n : Nat) (c : Cursor) :
    runStar step next n c = (starOutcomes places n c).findSome? next := by
  induction n generalizing c with
  | zero => simp [runStar, starOutcomes]
  | succ n ih =>
    have he : runStar step next n = fun c => (starOutcomes places n c).findSome? next :=
      funext ih
    rw [runStar, starOutcomes, h, List.findSome?_append, findSome?_flatMap, he]
    simp

theorem run_eq_findSome? {α : Type} (n : Nat) (p : Pattern) (c : Cursor) (next : Continuation α) :
    run n p c next = (outcomes n p c).findSome? next := by
  induction p generalizing c next with
  | empty => simp [run, outcomes]
  | startOfText => simp only [run, outcomes]; split <;> simp
  | endOfText => simp only [run, outcomes]; split <;> simp
  | char accepts =>
    rw [run, outcomes]
    cases c.rest with
    | nil => rfl
    | cons x s => cases h : accepts x <;> simp [h]
  | span eager accepts => exact runSpan_eq_findSome? ..
  | seq p q ihp ihq => simp only [run, outcomes, ihp, ihq, findSome?_flatMap]
  | alt p q ihp ihq => simp [run, outcomes, ihp, ihq, List.findSome?_append]
  | star p ih => exact runStar_eq_findSome? _ _ next ih n c
  | group index p ih => rw [run, outcomes, ih, List.findSome?_map]; rfl

/-- The place behind the first match is the first outcome. -/
theorem match?_eq_head? (n : Nat) (p : Pattern) (first : Bool) (s : List Char) :
    match? n p first s = (outcomes n p ⟨first, s, []⟩).head? := by
  rw [match?, run_eq_findSome?]
  cases outcomes n p ⟨first, s, []⟩ <;> rfl

end StyleFold.Pattern
