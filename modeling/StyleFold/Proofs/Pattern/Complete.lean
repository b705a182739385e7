import StyleFold.Proofs.Pattern.Within

/-!
A pattern without anchors finds every way to match: for every text of its language that stands in
front there is an outcome. So a run fails only where no text of the language leads to what follows.
-/
namespace StyleFold.Pattern
open Text

variable {n : Nat} {p q : Pattern} {ps : List Pattern} {c d : Cursor} {s t w : List Char}
  {first : Bool} {groups : List (Nat × List Char × List Char)} {α : Type} {next : Continuation α}
  {r : α}

def isFloating : Pattern → Bool
  | startOfText | endOfText => false
  | seq p q | alt p q => p.isFloating && q.isFloating
  | star p => p.isFloating
  | group _ p => p.isFloating
  | _ => true

theorem isFloating_all (h : ∀ p ∈ ps, p.isFloating = true) : (all ps).isFloating = true :=
  all_induction (motive := fun p => p.isFloating = true) rfl
    (fun _ _ hp hq => Bool.and_eq_true_iff.mpr ⟨hp, hq⟩) h

theorem isFloating_any (h : ∀ p ∈ ps, p.isFloating = true) : (any ps).isFloating = true :=
  any_induction (motive := fun p => p.isFloating = true) rfl
    (fun _ _ hp hq => Bool.and_eq_true_iff.mpr ⟨hp, hq⟩) h

@[simp] theorem isFloating_optional (p : Pattern) : (optional p).isFloating = p.isFloating :=
  Bool.and_true _

@[simp] theorem isFloating_word (s : String) : (word s).isFloating = true :=
  isFloating_all fun p hp => by
    obtain ⟨c, -, rfl⟩ := List.mem_map.mp hp
    rfl

@[simp] theorem isFloating_oneOf (ws : List String) : (oneOf ws).isFloating = true :=
  isFloating_any fun p hp => by
    obtain ⟨v, -, rfl⟩ := List.mem_map.mp hp
    exact isFloating_word v

theorem mem_spanOutcomes_self {eager : Bool} {accepts : Char → Bool} :
    ⟨first, s, groups⟩ ∈ spanOutcomes eager accepts groups first s := by
  cases s with
  | nil => exact List.mem_singleton_self _
  | cons c s =>
    rw [spanOutcomes]
    cases accepts c <;> cases eager <;> simp

theorem exists_mem_spanOutcomes {eager : Bool} {accepts : Char → Bool}
    (hw : ∀ c ∈ w, accepts c = true) (t : List Char) :
    ∃ d ∈ spanOutcomes eager accepts groups first (w ++ t), d.rest = t := by
  induction w generalizing first with
  | nil => exact ⟨_, mem_spanOutcomes_self, rfl⟩
  | cons c w ih =>
    obtain ⟨hc, hw⟩ := List.forall_mem_cons.mp hw
    obtain ⟨d, hd, hrest⟩ := @ih false hw
    refine ⟨d, ?_, hrest⟩
    rw [List.cons_append, spanOutcomes, hc]
    cases eager <;> simp [hd]

theorem mem_starOutcomes_self {step : Cursor → List Cursor} (m : Nat) :
    c ∈ starOutcomes step m c := by
  cases m <;> simp [starOutcomes]

theorem exists_mem_starOutcomes {step : Cursor → List Cursor} {ws : List (List Char)}
    (hstep : ∀ u ∈ ws, ∀ first rest groups, (u ++ rest).length ≤ n →
      ∃ d ∈ step ⟨first, u ++ rest, groups⟩, d.rest = rest)
    (hn : (ws.flatten ++ t).length ≤ n) {m : Nat} (hm : ws.length ≤ m) :
    ∃ d ∈ starOutcomes step m ⟨first, ws.flatten ++ t, groups⟩, d.rest = t := by
  induction ws generalizing first groups m with
  | nil => exact ⟨_, mem_starOutcomes_self m, rfl⟩
  | cons u ws ih =>
    obtain ⟨hu, hws⟩ := List.forall_mem_cons.mp hstep
    obtain ⟨m, rfl⟩ : ∃ k, m = k + 1 := ⟨m - 1, by simp at hm; omega⟩
    rw [List.flatten_cons, List.append_assoc] at hn ⊢
    obtain ⟨⟨first', rest, groups'⟩, he, rfl⟩ := hu first _ groups hn
    have hn : (ws.flatten ++ t).length ≤ n := le_trans (by simp) hn
    obtain ⟨d, hd, hrest⟩ := @ih first' groups' hws hn m (Nat.le_of_succ_le_succ hm)
    exact ⟨d, List.mem_append_left _ (List.mem_flatMap.mpr ⟨_, he, hd⟩), hrest⟩

/-- A star needs no step for an empty text, so that it makes no more steps than there are characters. -/
theorem exists_steps (ws : List (List Char)) : ∃ us : List (List Char), us.flatten = ws.flatten ∧
    (∀ u ∈ us, u ∈ ws) ∧ us.length ≤ ws.flatten.length := by
  have hfilled : (ws.filter fun u => !u.isEmpty).flatten = ws.flatten :=
    List.flatten_filter_not_isEmpty
  refine ⟨_, hfilled, fun u hu => (List.mem_filter.mp hu).1, ?_⟩
  rw [← hfilled, List.length_flatten, ← List.length_map (f := List.length)]
  refine List.length_le_sum_of_one_le _ fun m hm => ?_
  obtain ⟨u, hu, rfl⟩ := List.mem_map.mp hm
  obtain ⟨-, hne⟩ := List.mem_filter.mp hu
  exact List.length_pos_iff.mpr (by simpa using hne)

/-- For every text of the language there is an outcome behind it. -/
theorem exists_mem_outcomes (hp : p.isFloating = true) (h : Language p w)
    (hn : (w ++ t).length ≤ n) : ∃ d ∈ outcomes n p ⟨first, w ++ t, groups⟩, d.rest = t := by
  induction p generalizing w t first groups with
  | empty =>
    obtain rfl : w = [] := h
    exact ⟨_, List.mem_singleton_self _, rfl⟩
  | startOfText | endOfText => contradiction
  | char accepts =>
    obtain ⟨x, rfl, hx⟩ := h
    exact ⟨⟨false, t, groups⟩, by simp [outcomes, hx], rfl⟩
  | span eager accepts => exact exists_mem_spanOutcomes h t
  | seq p q ihp ihq =>
    obtain ⟨hp, hq⟩ := Bool.and_eq_true_iff.mp hp
    obtain ⟨u, v, rfl, hu, hv⟩ := h
    rw [List.append_assoc] at hn ⊢
    obtain ⟨⟨first', rest, groups'⟩, he, rfl⟩ := @ihp _ _ first groups hp hu hn
    have hn : (v ++ t).length ≤ n := le_trans (by simp) hn
    obtain ⟨d, hd, hrest⟩ := @ihq _ _ first' groups' hq hv hn
    exact ⟨d, mem_outcomes_seq.mpr ⟨_, he, hd⟩, hrest⟩
  | alt p q ihp ihq =>
    obtain ⟨hp, hq⟩ := Bool.and_eq_true_iff.mp hp
    obtain h | h := h
    · obtain ⟨d, hd, hrest⟩ := @ihp _ _ first groups hp h hn
      exact ⟨d, mem_outcomes_alt.mpr (.inl hd), hrest⟩
    · obtain ⟨d, hd, hrest⟩ := @ihq _ _ first groups hq h hn
      exact ⟨d, mem_outcomes_alt.mpr (.inr hd), hrest⟩
  | star p ih =>
    obtain ⟨ws, rfl, hws⟩ := h
    obtain ⟨us, hus, hmem, hlength⟩ := exists_steps ws
    rw [← hus] at hn hlength ⊢
    exact exists_mem_starOutcomes (fun u hu _ _ _ hu' => ih hp (hws u (hmem u hu)) hu') hn
      (hlength.trans (le_trans (by simp) hn))
  | group index p ih =>
    obtain ⟨d, hd, hrest⟩ := @ih _ _ first groups hp h hn
    exact ⟨_, mem_outcomes_group.mpr ⟨d, hd, rfl⟩, hrest⟩

theorem exists_of_run (h : run n p c next = some r) : ∃ d ∈ outcomes n p c, next d = some r := by
  rw [run_eq_findSome?] at h
  exact List.exists_of_findSome?_eq_some h

theorem exists_of_run_seq (h : run n (seq p q) c next = some r) :
    ∃ d ∈ outcomes n p c, run n q d next = some r := by
  rw [run] at h
  exact exists_of_run h

/-- A run does not fail where what follows accepts one of the outcomes. -/
theorem exists_run (hd : d ∈ outcomes n p c) (hnext : next d ≠ none) :
    ∃ r, run n p c next = some r := by
  rw [run_eq_findSome?, ← Option.isSome_iff_exists, Option.isSome_iff_ne_none]
  exact fun h => hnext (List.findSome?_eq_none_iff.mp h d hd)

def fits (p : Pattern) (w : List Char) : Bool :=
  (match? w.length (seq p endOfText) true w).isSome

theorem fits_iff (hp : p.isFloating = true) : p.fits w = true ↔ Language p w := by
  rw [fits, Option.isSome_iff_exists]
  refine ⟨fun ⟨m, hm⟩ => ?_, fun h => ?_⟩
  · obtain ⟨d, hd, hend⟩ := exists_of_run_seq hm
    obtain ⟨⟨u, hu, hlang⟩, -⟩ := went_of_mem hd
    rw [run] at hend
    split at hend
    · rename_i hrest
      rw [List.isEmpty_iff.mp hrest, List.append_nil] at hu
      obtain rfl : w = u := hu
      exact hlang
    · contradiction
  · obtain ⟨d, hd, hrest⟩ := @exists_mem_outcomes w.length p [] w true [] hp h (by simp)
    rw [List.append_nil] at hd
    have hnext : run w.length endOfText d some ≠ none := by simp [run, hrest]
    rw [match?, run_seq]
    exact exists_run hd hnext

theorem run_alt (n : Nat) (p q : Pattern) (c : Cursor) (next : Continuation α) :
    run n (alt p q) c next = (run n p c next).or (run n q c next) := by
  rw [run]
  cases run n p c next <;> rfl

end StyleFold.Pattern
