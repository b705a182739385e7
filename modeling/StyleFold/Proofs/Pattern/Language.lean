import StyleFold.Pattern.Outcomes
import StyleFold.Proofs.Pattern.Run

/-! The texts that a pattern can match, wherever it leads. -/
namespace StyleFold.Pattern
open Text

variable {n : Nat} {p q : Pattern} {c d : Cursor} {first : Bool} {s w : List Char}

/-- The texts that a pattern can match, regardless of what surrounds them. -/
def Language : Pattern → List Char → Prop
  | empty, w | startOfText, w | endOfText, w => w = []
  | char accepts, w => ∃ x, w = [x] ∧ accepts x = true
  | span _ accepts, w => ∀ x ∈ w, accepts x = true
  | seq p q, w => ∃ u v, w = u ++ v ∧ Language p u ∧ Language q v
  | alt p q, w => Language p w ∨ Language q w
  | star p, w => ∃ ws, w = List.flatten ws ∧ ∀ u ∈ ws, Language p u
  | group _ p, w => Language p w

def subgroups : Pattern → List (Nat × Pattern)
  | seq p q | alt p q => subgroups p ++ subgroups q
  | star p => subgroups p
  | group index p => (index, p) :: subgroups p
  | _ => []

theorem mem_outcomes_seq : d ∈ outcomes n (seq p q) c ↔
    ∃ e ∈ outcomes n p c, d ∈ outcomes n q e := by
  rw [outcomes, List.mem_flatMap]

theorem mem_outcomes_alt : d ∈ outcomes n (alt p q) c ↔
    d ∈ outcomes n p c ∨ d ∈ outcomes n q c := by
  rw [outcomes, List.mem_append]

theorem mem_outcomes_group {index : Nat} : d ∈ outcomes n (group index p) c ↔
    ∃ e ∈ outcomes n p c, d = ⟨e.first, e.rest, (index, c.rest, e.rest) :: e.groups⟩ := by
  simp only [outcomes, List.mem_map, eq_comm]

/-- What a pattern went over on its way, and the groups it met there. -/
structure Went (p : Pattern) (c d : Cursor) : Prop where
  text : ∃ w, c.rest = w ++ d.rest ∧ Language p w
  groups : ∃ new, d.groups = new ++ c.groups ∧ ∀ g ∈ new, ∃ q, (g.1, q) ∈ subgroups p ∧
    g.2.1 <:+ c.rest ∧ ∃ w, g.2.1 = w ++ g.2.2 ∧ Language q w

namespace Went

theorem nothing (h : Language p []) (c : Cursor) : Went p c c :=
  ⟨⟨[], rfl, h⟩, [], rfl, by simp⟩

theorem mono (h : Went p c d) (hlang : ∀ w, Language p w → Language q w)
    (hsub : subgroups p ⊆ subgroups q) : Went q c d := by
  obtain ⟨⟨w, hw, hp⟩, new, hnew, hgroups⟩ := h
  refine ⟨⟨w, hw, hlang w hp⟩, new, hnew, fun g hg => ?_⟩
  obtain ⟨r, hr, hg⟩ := hgroups g hg
  exact ⟨r, hsub hr, hg⟩

theorem trans {e : Cursor} {r : Pattern} (h : Went p c d) (h' : Went q d e)
    (hlang : ∀ u v, Language p u → Language q v → Language r (u ++ v))
    (hp : subgroups p ⊆ subgroups r) (hq : subgroups q ⊆ subgroups r) : Went r c e := by
  obtain ⟨⟨u, hu, hlu⟩, new, hnew, hgroups⟩ := h
  obtain ⟨⟨v, hv, hlv⟩, new', hnew', hgroups'⟩ := h'
  refine ⟨⟨u ++ v, by rw [hu, hv, List.append_assoc], hlang u v hlu hlv⟩, new' ++ new,
    by rw [hnew', hnew, List.append_assoc], List.forall_mem_append.mpr ⟨?_, ?_⟩⟩
  · intro g hg
    obtain ⟨t, ht, hsuffix, hw⟩ := hgroups' g hg
    exact ⟨t, hq ht, hsuffix.trans ⟨u, hu.symm⟩, hw⟩
  · intro g hg
    obtain ⟨t, ht, hw⟩ := hgroups g hg
    exact ⟨t, hp ht, hw⟩

end Went

theorem went_span {eager : Bool} {accepts : Char → Bool}
    {groups : List (Nat × List Char × List Char)} {first : Bool} {s : List Char}
    (h : d ∈ spanOutcomes eager accepts groups first s) :
    (∃ w, s = w ++ d.rest ∧ ∀ x ∈ w, accepts x = true) ∧ d.groups = groups := by
  induction s generalizing first with
  | nil =>
    rw [spanOutcomes, List.mem_singleton] at h
    subst h
    exact ⟨⟨[], rfl, by simp⟩, rfl⟩
  | cons x s ih =>
    have hhere : d = ⟨first, x :: s, groups⟩ →
        (∃ w, x :: s = w ++ d.rest ∧ ∀ y ∈ w, accepts y = true) ∧ d.groups = groups := by
      rintro rfl
      exact ⟨⟨[], rfl, by simp⟩, rfl⟩
    have hthere (hx : accepts x = true) (h : d ∈ spanOutcomes eager accepts groups false s) :
        (∃ w, x :: s = w ++ d.rest ∧ ∀ y ∈ w, accepts y = true) ∧ d.groups = groups := by
      obtain ⟨⟨w, rfl, hw⟩, hg⟩ := ih h
      exact ⟨⟨x :: w, rfl, List.forall_mem_cons.mpr ⟨hx, hw⟩⟩, hg⟩
    rw [spanOutcomes] at h
    split at h
    · rename_i hx
      split at h
      · obtain h | h := List.mem_append.mp h
        · exact hthere hx h
        · exact hhere (List.mem_singleton.mp h)
      · obtain h | h := List.mem_cons.mp h
        · exact hhere h
        · exact hthere hx h
    · exact hhere (List.mem_singleton.mp h)

theorem went_star {step : Cursor → List Cursor} (h : ∀ c, ∀ d ∈ step c, Went p c d)
    (hd : d ∈ starOutcomes step n c) : Went (star p) c d := by
  have hnil : Language (star p) [] := ⟨[], rfl, by simp⟩
  induction n generalizing c with
  | zero =>
    obtain rfl := List.mem_singleton.mp hd
    exact .nothing hnil d
  | succ n ih =>
    rw [starOutcomes, List.mem_append, List.mem_flatMap, List.mem_singleton] at hd
    obtain ⟨e, he, hd⟩ | rfl := hd
    · refine (h c e he).trans (ih hd) (fun u v hu hv => ?_) (List.Subset.refl _)
        (List.Subset.refl _)
      obtain ⟨vs, rfl, hvs⟩ := hv
      exact ⟨u :: vs, rfl, List.forall_mem_cons.mpr ⟨hu, hvs⟩⟩
    · exact .nothing hnil d

theorem went_of_mem (h : d ∈ outcomes n p c) : Went p c d := by
  induction p generalizing c d with
  | empty =>
    obtain rfl := List.mem_singleton.mp h
    exact Went.nothing (p := empty) rfl d
  | startOfText | endOfText =>
    rw [outcomes] at h
    split at h
    · obtain rfl := List.mem_singleton.mp h
      refine .nothing ?_ d
      exact rfl
    · simp at h
  | char accepts =>
    rw [outcomes] at h
    split at h
    · simp at h
    · rename_i x s hs
      split at h
      · obtain rfl := List.mem_singleton.mp h
        exact ⟨⟨[x], hs, x, rfl, ‹_›⟩, [], rfl, by simp⟩
      · simp at h
  | span eager accepts =>
    obtain ⟨⟨w, hw, hall⟩, hg⟩ := went_span h
    exact ⟨⟨w, hw, hall⟩, [], hg, by simp⟩
  | seq p q ihp ihq =>
    obtain ⟨e, he, hd⟩ := mem_outcomes_seq.mp h
    exact (ihp he).trans (ihq hd) (fun u v hu hv => ⟨u, v, rfl, hu, hv⟩)
      (List.subset_append_left ..) (List.subset_append_right ..)
  | alt p q ihp ihq =>
    obtain h | h := mem_outcomes_alt.mp h
    · exact (ihp h).mono (fun w hw => .inl hw) (List.subset_append_left ..)
    · exact (ihq h).mono (fun w hw => .inr hw) (List.subset_append_right ..)
  | star p ih => exact went_star (fun c d hd => ih hd) h
  | group index p ih =>
    obtain ⟨e, he, rfl⟩ := mem_outcomes_group.mp h
    obtain ⟨⟨u, hu, hlu⟩, new, hnew, hgroups⟩ :=
      (ih he).mono (q := group index p) (fun w hw => hw) (List.subset_cons_self ..)
    exact ⟨⟨u, hu, hlu⟩, (index, c.rest, e.rest) :: new, by rw [hnew]; rfl,
      List.forall_mem_cons.mpr ⟨⟨p, List.mem_cons_self, List.suffix_rfl, u, hu, hlu⟩, hgroups⟩⟩

theorem went_of_match? (h : match? n p first s = some d) :
    Went p ⟨first, s, []⟩ d := by
  rw [match?_eq_head?] at h
  exact went_of_mem (List.mem_of_head? h)

/-- What a group holds is a part of the text that the pattern of the group can match. -/
theorem Went.group (h : Went p ⟨first, s, []⟩ d) {index : Nat} (hw : d.group? index = some w) :
    ∃ q, (index, q) ∈ subgroups p ∧ Language q w ∧ w <:+: s := by
  obtain ⟨-, new, hnew, hgroups⟩ := h
  rw [Cursor.group?] at hw
  split at hw
  · rename_i i start stop hfind
    rw [hnew, List.append_nil] at hfind
    obtain ⟨q, hq, hsuffix, v, hv, hlang⟩ := hgroups _ (List.mem_of_find?_eq_some hfind)
    obtain rfl : i = index := by simpa using List.find?_some hfind
    dsimp only at hv hsuffix
    rw [hv, between_append] at hw
    obtain rfl := Option.some.inj hw
    exact ⟨q, hq, hlang, List.IsInfix.trans ⟨[], stop, by rw [hv, List.nil_append]⟩ hsuffix.isInfix⟩
  · cases hw

theorem exists_match?_of_mem {m : Match} {k : Nat} (h : Piece.found m ∈ piecesFrom n p k first s) :
    ∃ first' u, u <:+ s ∧ match? n p first' u = some m.stop ∧
      m.text = Cursor.between u m.stop.rest := by
  induction s generalizing k first with
  | nil => simp [piecesFrom] at h
  | cons c s ih =>
    have hbehind {k : Nat} {first : Bool} (h : Piece.found m ∈ piecesFrom n p k first s) :
        ∃ first' u, u <:+ c :: s ∧ match? n p first' u = some m.stop ∧
          m.text = Cursor.between u m.stop.rest := by
      obtain ⟨first', u, hu, hm⟩ := ih h
      exact ⟨first', u, hu.trans (List.suffix_cons c s), hm⟩
    cases k with
    | succ k => exact hbehind h
    | zero =>
      rw [piecesFrom] at h
      split at h
      · rename_i stop hstop
        obtain heq | h := List.mem_cons.mp h
        · obtain rfl := Piece.found.inj heq
          exact ⟨first, c :: s, List.suffix_rfl, hstop, rfl⟩
        · exact hbehind h
      · exact hbehind (by simpa using h)

theorem exists_went_of_mem_matches {m : Match} (h : m ∈ matches? p s) :
    ∃ first u, u <:+ s ∧ Went p ⟨first, u, []⟩ m.stop := by
  obtain ⟨piece, hpiece, hm⟩ := List.mem_filterMap.mp h
  cases piece with
  | plain c => cases hm
  | found m' =>
    obtain rfl : m' = m := Option.some.inj hm
    obtain ⟨first, u, hu, hmatch, -⟩ := exists_match?_of_mem hpiece
    exact ⟨first, u, hu, went_of_match? hmatch⟩

theorem beforeMatch_isPrefix (n : Nat) (p : Pattern) (s : List Char) :
    beforeMatch (piecesFrom n p 0 first s) <+: s := by
  induction s generalizing first with
  | nil => simp [piecesFrom, beforeMatch]
  | cons c s ih =>
    rw [piecesFrom]
    split
    · simp [beforeMatch]
    · rw [beforeMatch]
      exact List.prefix_cons_inj c |>.mpr ih

end StyleFold.Pattern
