import StyleFold.Proofs.Pattern.Style

/-!
Texts that differ in the width of their gaps. What a pattern matches with narrow gaps it matches
with wide ones, unless it counts the characters of gaps.
-/
namespace StyleFold.Pattern
open Text

variable {p q : Pattern} {ps : List Pattern} {c : Char} {s t u v w gap gap' : List Char}
  {f accepts : Char → Bool}

/-- `s` is `t` with gaps in place of spaces, and with gaps around slashes. -/
inductive Widens : List Char → List Char → Prop
  | nil : Widens [] []
  | char (c : Char) {s t : List Char} (h : Widens s t) : Widens (c :: s) (c :: t)
  | gap {gap s t : List Char} (hgap : ∀ c ∈ gap, isGap c = true) (hne : gap ≠ [])
      (h : Widens s t) : Widens (gap ++ s) (' ' :: t)
  | slash {gap gap' s t : List Char} (hgap : ∀ c ∈ gap, isGap c = true)
      (hgap' : ∀ c ∈ gap', isGap c = true) (h : Widens s t) :
      Widens (gap ++ '/' :: (gap' ++ s)) ('/' :: t)

theorem filter_eq_nil_of_gap (hgap : ∀ c ∈ gap, isGap c = true) :
    (gap.filter fun c => !isGap c) = [] :=
  List.filter_eq_nil_iff.mpr fun c hc => by simp [hgap c hc]

namespace Widens

theorem refl (s : List Char) : Widens s s := by
  induction s with
  | nil => exact .nil
  | cons c s ih => exact .char c ih

theorem append (h : Widens s t) (h' : Widens u v) : Widens (s ++ u) (t ++ v) := by
  induction h with
  | nil => exact h'
  | char c _ ih => exact .char c ih
  | gap hgap hne _ ih =>
    rw [List.append_assoc]
    exact .gap hgap hne ih
  | slash hgap hgap' _ ih =>
    rw [List.append_assoc, List.cons_append, List.append_assoc]
    exact .slash hgap hgap' ih

theorem split (h : Widens w (u ++ v)) : ∃ s t, w = s ++ t ∧ Widens s u ∧ Widens t v := by
  induction u generalizing w with
  | nil => exact ⟨[], w, rfl, .nil, h⟩
  | cons c u ih =>
    rw [List.cons_append] at h
    cases h with
    | char _ h =>
      obtain ⟨s, t, rfl, hs, ht⟩ := ih h
      exact ⟨c :: s, t, rfl, .char c hs, ht⟩
    | gap hgap hne h =>
      obtain ⟨s, t, rfl, hs, ht⟩ := ih h
      exact ⟨_, t, (List.append_assoc ..).symm, .gap hgap hne hs, ht⟩
    | slash hgap hgap' h =>
      obtain ⟨s, t, rfl, hs, ht⟩ := ih h
      exact ⟨_, t, by simp, .slash hgap hgap' hs, ht⟩

theorem of_mem (h : Widens w v) (hc : c ∈ w) : c ∈ v ∨ isGap c = true ∧ (' ' ∈ v ∨ '/' ∈ v) := by
  induction h with
  | nil => contradiction
  | char d _ ih =>
    obtain rfl | hc := List.mem_cons.mp hc
    · exact .inl List.mem_cons_self
    · simp only [List.mem_cons]
      tauto
  | gap hgap _ _ ih =>
    obtain hc | hc := List.mem_append.mp hc
    · exact .inr ⟨hgap c hc, .inl List.mem_cons_self⟩
    · simp only [List.mem_cons]
      tauto
  | slash hgap hgap' _ ih =>
    simp only [List.mem_append, List.mem_cons] at hc ⊢
    obtain hc | rfl | hc | hc := hc
    · exact .inr ⟨hgap c hc, by simp⟩
    · simp
    · exact .inr ⟨hgap' c hc, by simp⟩
    · tauto

theorem ne_nil (h : Widens w v) (hne : v ≠ []) : w ≠ [] := by
  cases h with
  | nil => exact hne
  | char => exact List.cons_ne_nil _ _
  | gap _ hfilled _ => simp [hfilled]
  | slash => simp

theorem eq_of_solid (h : Widens w v) (hv : ∀ c ∈ v, isStop c = false) : w = v := by
  induction h with
  | nil => rfl
  | char c _ ih => rw [ih (List.forall_mem_cons.mp hv).2]
  | gap => exact absurd (hv ' ' List.mem_cons_self) (by decide)
  | slash => exact absurd (hv '/' List.mem_cons_self) (by decide)

theorem gaps (h : Widens w v) (hv : ∀ c ∈ v, isGap c = true) : ∀ c ∈ w, isGap c = true := by
  intro c hc
  obtain hc | ⟨hc, -⟩ := h.of_mem hc
  · exact hv c hc
  · exact hc

theorem filter_eq (h : Widens w v) : (w.filter fun c => !isGap c) = v.filter fun c => !isGap c := by
  induction h with
  | nil => rfl
  | char c _ ih => rw [List.filter_cons, List.filter_cons, ih]
  | gap hgap _ _ ih =>
    rw [List.filter_append, filter_eq_nil_of_gap hgap, ih]
    rfl
  | slash hgap hgap' _ ih =>
    rw [List.filter_append, filter_eq_nil_of_gap hgap, List.filter_cons, List.filter_append,
      filter_eq_nil_of_gap hgap', ih]
    rfl

end Widens

abbrev Solid (p : Pattern) : Prop :=
  Within (fun c => !isStop c) p

/-- What the pattern matches it matches with wider gaps. -/
def Loose (p : Pattern) : Prop :=
  ∀ w v, Widens w v → Language p v → Language p w

theorem Solid.not_isStop (h : Solid p) (hw : Language p w) : ∀ c ∈ w, isStop c = false :=
  fun c hc => by simpa using h w hw c hc

theorem solid_char (h : stops.all (fun c => !accepts c) = true) : Solid (char accepts) :=
  .char fun _ hc => not_isStop_of_accepts h hc

theorem solid_span {eager : Bool} (h : stops.all (fun c => !accepts c) = true) :
    Solid (span eager accepts) :=
  .span fun _ hc => not_isStop_of_accepts h hc

theorem solid_of_lower (h : ((lower v).all fun c => !isStop c) = true) (hw : lower w = lower v) :
    ∀ c ∈ w, (!isStop c) = true := by
  intro c hc
  have hstops : stops.all (fun c => isStop c.toLower) = true := by decide
  have hlower := List.all_eq_true.mp h c.toLower (hw ▸ List.mem_map_of_mem hc)
  rw [Bool.not_eq_true', ← Bool.not_eq_true] at hlower ⊢
  exact fun hstop => hlower (List.all_eq_true.mp hstops c (mem_stops.mp hstop))

theorem solid_word {x : String} (h : ((lower x.toList).all fun c => !isStop c) = true) :
    Solid (word x) :=
  fun _ hw => solid_of_lower h (lower_of_word hw)

theorem solid_oneOf {ws : List String} (h : areSolid ws = true) : Solid (oneOf ws) := by
  intro w hw
  obtain ⟨x, hx, hlower⟩ := exists_of_oneOf hw
  exact solid_of_lower (List.all_eq_true.mp h x hx) hlower

namespace Loose

theorem of_solid (h : Solid p) : Loose p := by
  intro w v hwiden hv
  rw [hwiden.eq_of_solid (h.not_isStop hv)]
  exact hv

theorem span {eager : Bool} (hspace : accepts ' ' = true → ∀ c, isGap c = true → accepts c = true)
    (hslash : accepts '/' = true → ∀ c, isGap c = true → accepts c = true) :
    Loose (span eager accepts) := by
  intro w v hwiden hv c hc
  obtain hc | ⟨hgap, hm | hm⟩ := hwiden.of_mem hc
  · exact hv c hc
  · exact hspace (hv ' ' hm) c hgap
  · exact hslash (hv '/' hm) c hgap

theorem gaps : Loose (many isGap) :=
  span (fun _ _ => id) (fun h => absurd h (by decide))

theorem seq (hp : Loose p) (hq : Loose q) : Loose (seq p q) := by
  rintro w _ hwiden ⟨u, v, rfl, hu, hv⟩
  obtain ⟨s, t, rfl, hs, ht⟩ := hwiden.split
  exact ⟨s, t, rfl, hp s u hs hu, hq t v ht hv⟩

theorem alt (hp : Loose p) (hq : Loose q) : Loose (alt p q) :=
  fun w v hwiden hv => hv.imp (hp w v hwiden) (hq w v hwiden)

theorem optional (hp : Loose p) : Loose (optional p) := by
  refine hp.alt ?_
  rintro w _ hwiden rfl
  cases hwiden
  rfl

theorem star (hp : Loose p) : Loose (star p) := by
  rintro w _ hwiden ⟨vs, rfl, hvs⟩
  induction vs generalizing w with
  | nil =>
    cases hwiden
    exact ⟨[], rfl, nofun⟩
  | cons v vs ih =>
    obtain ⟨hv, hvs⟩ := List.forall_mem_cons.mp hvs
    obtain ⟨s, t, rfl, hs, ht⟩ := hwiden.split
    obtain ⟨ws, rfl, hws⟩ := ih t hvs ht
    exact ⟨s :: ws, rfl, List.forall_mem_cons.mpr ⟨hp s v hs hv, hws⟩⟩

theorem gaps1 : Loose (many1 isGap) := by
  rintro w v hwiden hv
  have hgaps : ∀ c ∈ v, isGap c = true := Within.many1 (fun _ => id) v hv
  obtain ⟨c, w, rfl⟩ := List.exists_cons_of_ne_nil (hwiden.ne_nil (Filled.many1 v hv))
  obtain ⟨hc, hw⟩ := List.forall_mem_cons.mp (hwiden.gaps hgaps)
  exact ⟨[c], w, rfl, ⟨c, rfl, hc⟩, hw⟩

theorem slash (hp : Loose p) : Loose (all [many isGap, symbol '/', many isGap, p]) := by
  rintro w _ hwiden ⟨a, _, rfl, ha, _, _, rfl, ⟨c, rfl, hc⟩, b, x, rfl, hb, hx⟩
  obtain rfl := beq_iff_eq.mp hc
  obtain ⟨a', w, rfl, ha', hwiden⟩ := hwiden.split
  rw [List.singleton_append] at hwiden
  have hbefore := ha'.gaps ha
  have hback {b' x' : List Char} (hgap : ∀ c ∈ b', isGap c = true) (hx' : Widens x' x) :
      Language (Pattern.seq (many isGap) p) (b' ++ x') :=
    ⟨b', x', rfl, hgap, hp x' x hx' hx⟩
  cases hwiden with
  | char _ h =>
    obtain ⟨b', x', rfl, hb', hx'⟩ := h.split
    exact ⟨a', _, rfl, hbefore, ['/'], _, rfl, ⟨'/', rfl, rfl⟩, hback (hb'.gaps hb) hx'⟩
  | @slash gap gap' s _ hgap hgap' h =>
    obtain ⟨b', x', rfl, hb', hx'⟩ := h.split
    refine ⟨a' ++ gap, '/' :: (gap' ++ (b' ++ x')), by simp, ?_, ['/'], _, rfl, ⟨'/', rfl, rfl⟩, ?_⟩
    · exact List.forall_mem_append.mpr ⟨hbefore, hgap⟩
    · have hgaps := List.forall_mem_append.mpr ⟨hgap', hb'.gaps hb⟩
      have hlast := hback hgaps hx'
      rw [List.append_assoc] at hlast
      exact hlast

end Loose
end StyleFold.Pattern
