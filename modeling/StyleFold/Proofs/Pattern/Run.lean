import StyleFold.Pattern.Search
import Mathlib

/-! What running a pattern comes to where the choices it makes are known. -/
namespace StyleFold.Pattern
open Text

variable {α : Type} {n : Nat} {p q : Pattern} {accepts : Char → Bool} {next : Continuation α}
  {groups : List (Nat × List Char × List Char)} {first : Bool} {s w : List Char} {r : α}

@[simp] theorem run_seq (n : Nat) (p q : Pattern) (c : Cursor) (next : Continuation α) :
    run n (seq p q) c next = run n p c fun c => run n q c next :=
  rfl

@[simp] theorem run_group (n index : Nat) (p : Pattern) (c : Cursor) (next : Continuation α) :
    run n (group index p) c next =
      run n p c fun d => next ⟨d.first, d.rest, (index, c.rest, d.rest) :: d.groups⟩ :=
  rfl

theorem run_char {c : Char} (h : accepts c = true) :
    run n (char accepts) ⟨first, c :: s, groups⟩ next = next ⟨false, s, groups⟩ := by
  simp [run, h]

theorem run_char_none (h : ∀ c ∈ s.head?, accepts c = false) :
    run n (char accepts) ⟨first, s, groups⟩ next = none := by
  cases s with
  | nil => rfl
  | cons c s => simp [run, h c rfl]

/-- An eager run of characters is taken whole where what follows accepts that. -/
theorem run_many (hw : ∀ c ∈ w, accepts c = true) (hs : ∀ c ∈ s.head?, accepts c = false)
    (hr : next ⟨first && w.isEmpty, s, groups⟩ = some r) :
    run n (many accepts) ⟨first, w ++ s, groups⟩ next = some r := by
  simp only [many, run]
  induction w generalizing first with
  | nil =>
    rw [List.isEmpty_nil, Bool.and_true] at hr
    cases s with
    | nil => simpa [runSpan] using hr
    | cons c s => simpa [runSpan, hs c rfl] using hr
  | cons c w ih =>
    have hc := hw c List.mem_cons_self
    have htail := @ih false (fun d hd => hw d (List.mem_cons_of_mem _ hd)) (by simpa using hr)
    simp [runSpan, hc, htail]

theorem runSpan_none {eager : Bool}
    (h : ∀ u v, s = u ++ v → (∀ c ∈ u, accepts c = true) →
      next ⟨first && u.isEmpty, v, groups⟩ = none) :
    runSpan eager accepts groups next first s = none := by
  induction s generalizing first with
  | nil => simpa [runSpan] using h [] [] rfl (by simp)
  | cons c s ih =>
    have hhere := h [] (c :: s) rfl (by simp)
    rw [List.isEmpty_nil, Bool.and_true] at hhere
    by_cases hc : accepts c = true
    · have htail := @ih false fun u v huv hu => by
        have := h (c :: u) v (by rw [huv, List.cons_append])
          (List.forall_mem_cons.mpr ⟨hc, hu⟩)
        simpa using this
      cases eager <;> simp [runSpan, hc, hhere, htail]
    · simpa [runSpan, hc] using hhere

theorem run_many_none
    (h : ∀ u v, s = u ++ v → (∀ c ∈ u, accepts c = true) →
      next ⟨first && u.isEmpty, v, groups⟩ = none) :
    run n (many accepts) ⟨first, s, groups⟩ next = none :=
  runSpan_none h

/-- A reluctant run ends where what follows accepts for the first time. -/
theorem run_few (hw : ∀ c ∈ w, accepts c = true)
    (hstop : ∀ u v, w = u ++ v → v ≠ [] → next ⟨false, v ++ s, groups⟩ = none)
    (hr : next ⟨false, s, groups⟩ = some r) :
    run n (few accepts) ⟨false, w ++ s, groups⟩ next = some r := by
  simp only [few, run]
  induction w with
  | nil =>
    cases s with
    | nil => simpa [runSpan] using hr
    | cons c s => by_cases hc : accepts c = true <;> simp [runSpan, hc, hr]
  | cons c w ih =>
    have hc := hw c List.mem_cons_self
    have hhere := hstop [] (c :: w) rfl (by simp)
    have htail := ih (fun d hd => hw d (List.mem_cons_of_mem _ hd)) fun u v huv hv =>
      hstop (c :: u) v (by rw [huv, List.cons_append]) hv
    rw [List.cons_append] at hhere
    simp [runSpan, hc, hhere, htail]

theorem run_all_cons (n : Nat) (p q : Pattern) (ps : List Pattern) (c : Cursor)
    (next : Continuation α) : run n (Pattern.all (p :: q :: ps)) c next =
      run n p c fun c => run n (Pattern.all (q :: ps)) c next :=
  rfl

theorem run_anyCase {c d : Char} (h : c.toLower = d.toLower) :
    run n (anyCase d) ⟨first, c :: s, groups⟩ next = next ⟨false, s, groups⟩ :=
  run_char (by simpa using h)

theorem run_letters {cs : List Char} (hs : lower w = lower cs) (hw : w ≠ [])
    (hr : next ⟨false, s, groups⟩ = some r) :
    run n (Pattern.all (cs.map anyCase)) ⟨first, w ++ s, groups⟩ next = some r := by
  induction w generalizing cs first with
  | nil => contradiction
  | cons c w ih =>
    cases cs with
    | nil => simp [lower] at hs
    | cons d cs =>
      obtain ⟨hc, hs⟩ : c.toLower = d.toLower ∧ lower w = lower cs := by simpa [lower] using hs
      cases cs with
      | nil =>
        have hnil : w = [] := by simpa [lower] using hs
        subst hnil
        rw [← hr]
        exact run_anyCase hc
      | cons e cs =>
        have hne : w ≠ [] := by
          rintro rfl
          simp [lower] at hs
        rw [List.map_cons, List.map_cons, run_all_cons, List.cons_append, run_anyCase hc]
        exact ih hs hne

theorem piecesFrom_drop (n : Nat) (p : Pattern) (k : Nat) (s : List Char) :
    piecesFrom n p k false s = piecesFrom n p 0 false (s.drop k) := by
  induction s generalizing k with
  | nil => simp [piecesFrom]
  | cons c s ih =>
    cases k with
    | zero => rfl
    | succ k => simpa [piecesFrom] using ih k

theorem piecesFrom_plain
    (h : ∀ u v, w = u ++ v → v ≠ [] → ∀ first, match? n p first (v ++ s) = none) :
    piecesFrom n p 0 first (w ++ s) =
      w.map Piece.plain ++ piecesFrom n p 0 (first && w.isEmpty) s := by
  induction w generalizing first with
  | nil => simp
  | cons c w ih =>
    have hhere := h [] (c :: w) rfl (by simp) first
    rw [List.cons_append] at hhere
    rw [List.cons_append, piecesFrom, hhere]
    dsimp only
    rw [ih fun u v huv => h (c :: u) v (by rw [huv, List.cons_append])]
    simp

theorem between_append (s t : List Char) : Cursor.between (s ++ t) t = s := by
  simp [Cursor.between]

theorem piecesFrom_found {stop : Cursor} (h : match? n p first (w ++ s) = some stop)
    (hs : stop.rest = s) (hw : w ≠ []) :
    piecesFrom n p 0 first (w ++ s) = .found ⟨w, stop⟩ :: piecesFrom n p 0 false s := by
  obtain ⟨c, w, rfl⟩ := List.exists_cons_of_ne_nil hw
  have hbetween := between_append (c :: w) s
  rw [List.cons_append] at h hbetween ⊢
  rw [piecesFrom, h]
  dsimp only
  rw [hs, hbetween, piecesFrom_drop]
  simp

end StyleFold.Pattern
