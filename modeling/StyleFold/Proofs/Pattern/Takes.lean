import StyleFold.Pattern.Style
import StyleFold.Proofs.Pattern.Within
import StyleFold.Proofs.Text.Letters

/-!
The text that a pattern tries first. Where no way to match comes before it, that text is the match.
-/
namespace StyleFold.Pattern
open Text

variable {n : Nat} {p q : Pattern} {ps qs : List Pattern} {c : Char} {s t u v w : List Char}
  {f accepts : Char → Bool} {first : Bool} {groups : List (Nat × List Char × List Char)}

/-- The pattern tries `w` first where `t` follows. -/
def Takes (p : Pattern) (w t : List Char) : Prop :=
  ∀ n first groups, (w ++ t).length ≤ n →
    (outcomes n p ⟨first, w ++ t, groups⟩).head? = some ⟨first && w.isEmpty, t, groups⟩

/-- No text that the pattern can match begins `s`. -/
def Refuses (p : Pattern) (s : List Char) : Prop :=
  ∀ w t, s = w ++ t → ¬Language p w

/-- Every text that the pattern can match begins with a character that `f` accepts. -/
def Starts (f : Char → Bool) (p : Pattern) : Prop :=
  ∀ w, Language p w → ∃ c r, w = c :: r ∧ f c = true

namespace Starts

theorem mono {g : Char → Bool} (h : Starts f p) (hfg : ∀ c, f c = true → g c = true) :
    Starts g p := by
  intro w hw
  obtain ⟨c, r, rfl, hc⟩ := h w hw
  exact ⟨c, r, rfl, hfg c hc⟩

theorem char (h : ∀ c, accepts c = true → f c = true) : Starts f (char accepts) := by
  rintro w ⟨x, rfl, hx⟩
  exact ⟨x, [], rfl, h x hx⟩

theorem seq (h : Starts f p) (q : Pattern) : Starts f (seq p q) := by
  rintro w ⟨u, v, rfl, hu, -⟩
  obtain ⟨c, r, rfl, hc⟩ := h u hu
  exact ⟨c, r ++ v, rfl, hc⟩

theorem optional_seq (hp : Starts f p) (hq : Starts f q) : Starts f (Pattern.seq (optional p) q) := by
  rintro w ⟨u, v, rfl, hu | rfl, hv⟩
  · obtain ⟨c, r, rfl, hc⟩ := hp u hu
    exact ⟨c, r ++ v, rfl, hc⟩
  · exact hq v hv

theorem alt (hp : Starts f p) (hq : Starts f q) : Starts f (alt p q) :=
  fun w hw => hw.elim (hp w) (hq w)

theorem any (h : ∀ p ∈ ps, Starts f p) : Starts f (any ps) := by
  intro w hw
  obtain ⟨p, hp, hlang⟩ := exists_of_any hw
  exact h p hp w hlang

theorem word {x : String} (h : (lower x.toList).head?.any f = true) :
    Starts (fun c => f c.toLower) (word x) := by
  intro w hw
  rw [← lower_of_word hw] at h
  cases w with
  | nil => contradiction
  | cons c w => exact ⟨c, w, rfl, h⟩

theorem oneOf {ws : List String} (h : (ws.all fun x => (lower x.toList).head?.any f) = true) :
    Starts (fun c => f c.toLower) (oneOf ws) := by
  refine any fun p hp => ?_
  obtain ⟨x, hx, rfl⟩ := List.mem_map.mp hp
  exact word (List.all_eq_true.mp h x (mem_longestFirst.mp hx))

theorem many1 (h : ∀ c, accepts c = true → f c = true) : Starts f (many1 accepts) :=
  (char h).seq _

theorem refuses (h : Starts f p) (hs : ∀ c ∈ s.head?, f c = false) : Refuses p s := by
  rintro w t rfl hw
  obtain ⟨c, r, rfl, hc⟩ := h w hw
  rw [hs c rfl] at hc
  contradiction

end Starts

theorem outcomes_of_refuses (h : Refuses p s) : outcomes n p ⟨first, s, groups⟩ = [] := by
  refine List.eq_nil_iff_forall_not_mem.mpr fun d hd => ?_
  obtain ⟨⟨w, hw, hlang⟩, -⟩ := went_of_mem hd
  exact h w d.rest hw hlang

namespace Refuses

theorem seq (h : Refuses p s) (q : Pattern) : Refuses (seq p q) s := by
  rintro w t rfl ⟨u, v, rfl, hu, -⟩
  exact h u (v ++ t) (List.append_assoc ..) hu

theorem alt (hp : Refuses p s) (hq : Refuses q s) : Refuses (alt p q) s :=
  fun w t h hw => hw.elim (hp w t h) (hq w t h)

theorem optional_seq (hp : Refuses p s) (hq : Refuses q s) :
    Refuses (Pattern.seq (Pattern.optional p) q) s := by
  rintro w t rfl ⟨u, v, rfl, hu | rfl, hv⟩
  · exact hp u (v ++ t) (List.append_assoc ..) hu
  · exact hq v t (List.nil_append _) hv

/-- A word is refused where another word stands, unless one of them begins the other one. -/
theorem word {x : String} {y : List Char} (hw : lower w = lower y)
    (h : ¬(lower x.toList <+: lower y ∨ lower y <+: lower x.toList)) (t : List Char) :
    Refuses (word x) (w ++ t) := by
  intro v rest hsplit hv
  have hx : lower x.toList <+: lower (w ++ t) :=
    ⟨lower rest, by rw [hsplit, lower_append, lower_of_word hv]⟩
  have hy : lower y <+: lower (w ++ t) := ⟨lower t, by rw [lower_append, hw]⟩
  exact h (List.prefix_or_prefix_of_prefix hx hy)

end Refuses

namespace Takes

theorem language (h : Takes p w t) : Language p w := by
  have hhead := h (w ++ t).length false [] le_rfl
  obtain ⟨⟨u, hu, hlang⟩, -⟩ := went_of_mem (List.mem_of_head? hhead)
  obtain rfl : w = u := List.append_cancel_right hu
  exact hlang

theorem char (hc : accepts c = true) (t : List Char) : Takes (char accepts) [c] t := by
  intro n first groups _
  simp [outcomes, hc]

theorem many (hw : ∀ c ∈ w, accepts c = true) (ht : ∀ c ∈ t.head?, accepts c = false) :
    Takes (many accepts) w t := by
  intro n first groups hn
  rw [Pattern.many, outcomes]
  induction w generalizing first with
  | nil =>
    cases t with
    | nil => simp [spanOutcomes]
    | cons c t => simp [spanOutcomes, ht c rfl]
  | cons c w ih =>
    obtain ⟨hc, hw⟩ := List.forall_mem_cons.mp hw
    have htail := ih hw false (by simp at hn ⊢; omega)
    simp only [List.cons_append, spanOutcomes, hc, if_true, List.head?_append]
    simp [htail]

theorem seq (hp : Takes p u (v ++ t)) (hq : Takes q v t) : Takes (seq p q) (u ++ v) t := by
  intro n first groups hn
  have hu := hp n first groups (by rwa [← List.append_assoc])
  have hv := hq n (first && u.isEmpty) groups
    (le_trans (by simp only [List.length_append]; omega) hn)
  rw [List.append_assoc, outcomes]
  obtain ⟨ds, hds⟩ := List.head?_eq_some_iff.mp hu
  rw [hds, List.flatMap_cons, List.head?_append, hv]
  cases u <;> simp

theorem alt_left (h : Takes p w t) (q : Pattern) : Takes (alt p q) w t := by
  intro n first groups hn
  rw [outcomes, List.head?_append, h n first groups hn]
  rfl

theorem alt_right (h : Takes q w t) (hp : Refuses p (w ++ t)) : Takes (alt p q) w t := by
  intro n first groups hn
  rw [outcomes, outcomes_of_refuses hp]
  exact h n first groups hn

theorem optional (h : Takes p w t) : Takes (optional p) w t :=
  h.alt_left empty

theorem optional_empty (h : Refuses p t) : Takes (Pattern.optional p) [] t := by
  intro n first groups _
  rw [Pattern.optional, outcomes, List.nil_append, outcomes_of_refuses h]
  simp [outcomes]

theorem many1 (hne : w ≠ []) (hw : ∀ c ∈ w, accepts c = true)
    (ht : ∀ c ∈ t.head?, accepts c = false) : Takes (many1 accepts) w t := by
  obtain ⟨c, w, rfl⟩ := List.exists_cons_of_ne_nil hne
  obtain ⟨hc, hw⟩ := List.forall_mem_cons.mp hw
  exact (char hc (w ++ t)).seq (many hw ht)

theorem any_cons_left (h : Takes p w t) (ps : List Pattern) : Takes (any (p :: ps)) w t := by
  cases ps with
  | nil => exact h
  | cons q ps => exact h.alt_left _

theorem any_cons_right (hp : Refuses p (w ++ t)) (h : Takes (any ps) w t) :
    Takes (any (p :: ps)) w t := by
  cases ps with
  | nil =>
    obtain ⟨x, -, hx⟩ := h.language
    contradiction
  | cons q ps => exact h.alt_right hp

theorem any_append (hqs : ∀ q ∈ qs, Takes q w t ∨ Refuses q (w ++ t)) (hp : Takes p w t)
    (ps : List Pattern) : Takes (any (qs ++ p :: ps)) w t := by
  induction qs with
  | nil => exact hp.any_cons_left ps
  | cons q qs ih =>
    obtain ⟨hq, hqs⟩ := List.forall_mem_cons.mp hqs
    obtain hq | hq := hq
    · exact hq.any_cons_left _
    · exact any_cons_right hq (ih hqs)

theorem letters {cs : List Char} (h : lower w = lower cs) (t : List Char) :
    Takes (Pattern.all (cs.map anyCase)) w t := by
  induction cs generalizing w with
  | nil =>
    obtain rfl : w = [] := List.map_eq_nil_iff.mp h
    intro n first groups _
    simp [Pattern.all, outcomes]
  | cons d cs ih =>
    obtain ⟨c, w, rfl⟩ : ∃ c r, w = c :: r := by
      cases w with
      | nil => simp [lower] at h
      | cons c w => exact ⟨c, w, rfl⟩
    obtain ⟨hc, hw⟩ : c.toLower = d.toLower ∧ lower w = lower cs := by simpa [lower] using h
    have hletter : Takes (anyCase d) [c] (w ++ t) := char (by simpa using hc) _
    cases cs with
    | nil =>
      obtain rfl : w = [] := List.map_eq_nil_iff.mp hw
      exact hletter
    | cons e cs => exact hletter.seq (ih hw)

theorem word {x : String} (h : lower w = lower x.toList) (t : List Char) :
    Takes (Pattern.word x) w t :=
  letters h t

end Takes

theorem pairwise_insertByLength {x : String} {ws : List String}
    (h : ws.Pairwise fun u v => v.length ≤ u.length) :
    (insertByLength x ws).Pairwise fun u v => v.length ≤ u.length := by
  induction ws with
  | nil => simp [insertByLength]
  | cons y ws ih =>
    obtain ⟨hy, hws⟩ := List.pairwise_cons.mp h
    rw [insertByLength]
    split
    · rename_i hle
      refine List.pairwise_cons.mpr ⟨List.forall_mem_cons.mpr ⟨hle, fun z hz => ?_⟩, h⟩
      exact (hy z hz).trans hle
    · rename_i hlt
      refine List.pairwise_cons.mpr ⟨fun z hz => ?_, ih hws⟩
      obtain rfl | hz := mem_insertByLength.mp hz
      · omega
      · exact hy z hz

theorem pairwise_longestFirst (ws : List String) :
    (longestFirst ws).Pairwise fun u v => v.length ≤ u.length := by
  induction ws with
  | nil => exact .nil
  | cons x ws ih => exact pairwise_insertByLength ih

theorem Takes.oneOf {ws : List String} {x : String} (hx : x ∈ ws) (hw : lower w = lower x.toList)
    (ht : ∀ c ∈ t.head?, ∀ y ∈ ws, c.toLower ∉ lower y.toList) : Takes (oneOf ws) w t := by
  obtain ⟨front, back, hws⟩ := List.append_of_mem (mem_longestFirst.mpr hx)
  have hsorted := pairwise_longestFirst ws
  rw [hws] at hsorted
  have hfront := (List.pairwise_append.mp hsorted).2.2
  rw [Pattern.oneOf, hws, List.map_append, List.map_cons]
  refine any_append (fun q hq => ?_) (word hw t) _
  obtain ⟨y, hy, rfl⟩ := List.mem_map.mp hq
  by_cases heq : lower w = lower y.toList
  · exact .inl (word heq t)
  · -- A longer word would reach into the text behind.
    refine .inr fun u r hu hlang => ?_
    have hlower := lower_of_word hlang
    have hlength : w.length ≤ u.length := by
      have hy := hfront y hy x List.mem_cons_self
      have h₁ := congrArg List.length hlower
      have h₂ := congrArg List.length hw
      simp only [lower, List.length_map, String.length_toList] at h₁ h₂
      omega
    obtain ⟨v, rfl⟩ : w <+: u := List.prefix_of_prefix_length_le ⟨t, hu⟩ ⟨r, rfl⟩ hlength
    rw [List.append_assoc] at hu
    have htail := List.append_cancel_left hu
    cases v with
    | nil => exact heq (by simpa using hlower)
    | cons c v =>
      refine ht c (by rw [htail]; rfl) y
        (mem_longestFirst.mp (by rw [hws]; exact List.mem_append_left _ hy)) ?_
      rw [← hlower]
      exact List.mem_map_of_mem (by simp)

end StyleFold.Pattern
