import StyleFold.Proofs.Pattern.Style
import StyleFold.Shorthand.Background

/-!
The tokens that a pattern finds in a text made up of pieces with gaps between them, piece by piece.
-/
namespace StyleFold.BackgroundShorthand
open Text Pattern

variable {n : Nat} {p : Pattern} {c : Char} {s t v w gap gap' lead : List Char} {first : Bool}
  {stop : Cursor} {ws texts : List (List Char)} {wss : List (List (List Char))}

inductive Joined : List (List Char) → List Char → Prop
  | nil : Joined [] []
  | single (w : List Char) : Joined [w] w
  | cons {w gap s : List Char} {ws : List (List Char)} (hgap : ∀ c ∈ gap, isGap c = true)
      (hne : gap ≠ []) (hws : ws ≠ []) (h : Joined ws s) : Joined (w :: ws) (w ++ (gap ++ s))

def tokensFrom (n : Nat) (p : Pattern) (first : Bool) (s : List Char) : List (List Char) :=
  (piecesFrom n (atTokenStart p) 0 first s).filterMap fun piece => piece.match?.bind token?

theorem tokens_eq (p : Pattern) (s : List Char) : tokens p s = tokensFrom s.length p true s := by
  rw [tokens, matches?, pieces, List.filterMap_filterMap]
  rfl

@[simp] theorem tokensFrom_nil (n : Nat) (p : Pattern) (first : Bool) :
    tokensFrom n p first [] = [] :=
  rfl

/-- What stands before a token: the start of the text or a character of a gap. -/
def Lead (first : Bool) (lead : List Char) : Prop :=
  lead = [] ∧ first = true ∨ ∃ d, lead = [d] ∧ isGap d = true

/-- A text that begins with a word does not begin with a gap and a word behind it. -/
theorem lead_unique {u : List Char} {d : Char} (hu : u = [] ∨ ∃ e, u = [e] ∧ isGap e = true)
    (hv : v = [] ∨ ∃ e, v = [e] ∧ isGap e = true) (hc : isGap c = false) (hd : isGap d = false)
    (h : u ++ c :: s = v ++ d :: t) : u = v := by
  obtain rfl | ⟨e, rfl, he⟩ := hu
  · obtain rfl | ⟨e', rfl, he'⟩ := hv
    · rfl
    · rw [(List.cons.inj h).1, he'] at hc
      contradiction
  · obtain rfl | ⟨e', rfl, -⟩ := hv
    · rw [← (List.cons.inj h).1, he] at hd
      contradiction
    · rw [(List.cons.inj h).1]

theorem match?_cases (h : match? n (atTokenStart p) first s = some stop) :
    ∃ lead v, s = lead ++ (v ++ stop.rest) ∧ Lead first lead ∧ Language p v := by
  rw [match?_eq_head?] at h
  obtain ⟨e, he, hstop⟩ := mem_outcomes_seq.mp (List.mem_of_head? h)
  obtain ⟨d, hd, rfl⟩ := mem_outcomes_group.mp hstop
  obtain ⟨⟨v, hv, hlang⟩, -⟩ := went_of_mem hd
  obtain he | he := mem_outcomes_alt.mp he
  · rw [outcomes] at he
    split at he
    · obtain rfl := List.mem_singleton.mp he
      exact ⟨[], v, hv, .inl ⟨rfl, ‹_›⟩, hlang⟩
    · simp at he
  · obtain ⟨⟨w, hw, x, rfl, hx⟩, -⟩ := went_of_mem he
    exact ⟨[x], v, hw.trans (by rw [hv]), .inr ⟨x, rfl, hx⟩, hlang⟩

theorem tokensFrom_of_none (h : match? n (atTokenStart p) first (c :: s) = none) :
    tokensFrom n p first (c :: s) = tokensFrom n p false s := by
  rw [tokensFrom, piecesFrom, h]
  rfl

abbrev Firm (p : Pattern) : Prop :=
  Starts (fun c => !isStop c) p

theorem Firm.head (hp : Firm p) (h : Language p v) : ∃ c r, v = c :: r ∧ isStop c = false := by
  obtain ⟨c, r, hv, hc⟩ := hp v h
  exact ⟨c, r, hv, by simpa using hc⟩

theorem tokensFrom_inside (hw : ∀ c ∈ w, isGap c = false) (t : List Char) :
    tokensFrom n p false (w ++ t) = tokensFrom n p false t := by
  induction w with
  | nil => rfl
  | cons c w ih =>
    obtain ⟨hc, hw⟩ := List.forall_mem_cons.mp hw
    rw [List.cons_append, tokensFrom_of_none, ih hw]
    refine Option.eq_none_iff_forall_ne_some.mpr fun stop hstop => ?_
    obtain ⟨lead, v, hs, ⟨-, hfirst⟩ | ⟨d, rfl, hd⟩, -⟩ := match?_cases hstop
    · contradiction
    · obtain ⟨rfl, -⟩ := List.cons.inj hs
      rw [hd] at hc
      contradiction

theorem tokensFrom_stop (hp : Firm p) (hc : isStop c = true) (hs : isGap c = true → Stop s) :
    tokensFrom n p first (c :: s) = tokensFrom n p false s := by
  refine tokensFrom_of_none (Option.eq_none_iff_forall_ne_some.mpr fun stop hstop => ?_)
  obtain ⟨lead, v, hcs, hlead, hlang⟩ := match?_cases hstop
  obtain ⟨d, r, rfl, hd⟩ := hp.head hlang
  obtain ⟨rfl, -⟩ | ⟨e, rfl, he⟩ := hlead
  · obtain ⟨rfl, -⟩ := List.cons.inj hcs
    rw [hc] at hd
    contradiction
  · obtain ⟨rfl, rfl⟩ := List.cons.inj hcs
    rw [hs he d rfl] at hd
    contradiction

theorem stop_of_gap (hgap : ∀ c ∈ gap, isGap c = true) (hne : gap ≠ []) (s : List Char) :
    Stop (gap ++ s) := by
  obtain ⟨c, gap, rfl⟩ := List.exists_cons_of_ne_nil hne
  rintro d ⟨⟩
  exact isStop_of_isGap (hgap c List.mem_cons_self)

/-- Of a gap only the last character counts. -/
theorem exists_last_gap (n : Nat) (first : Bool) (hp : Firm p) (hgap : ∀ c ∈ gap, isGap c = true) (hne : gap ≠ [])
    (s : List Char) : ∃ d first', isGap d = true ∧
      tokensFrom n p first (gap ++ s) = tokensFrom n p first' (d :: s) := by
  induction gap generalizing first with
  | nil => exact absurd rfl hne
  | cons c gap ih =>
    obtain ⟨hc, hgap⟩ := List.forall_mem_cons.mp hgap
    by_cases hnil : gap = []
    · exact ⟨c, first, hc, by rw [hnil]; rfl⟩
    · rw [List.cons_append, tokensFrom_stop hp (isStop_of_isGap hc)
        fun _ => stop_of_gap hgap hnil s]
      exact ih false hgap hnil

theorem tokensFrom_gap (hp : Firm p) (hgap : ∀ c ∈ gap, isGap c = true) :
    tokensFrom n p first gap = [] := by
  by_cases hne : gap = []
  · rw [hne, tokensFrom_nil]
  · obtain ⟨d, first', hd, htokens⟩ := exists_last_gap n first hp hgap hne []
    rw [List.append_nil] at htokens
    rw [htokens, tokensFrom_stop hp (isStop_of_isGap hd) (by simp [Stop]), tokensFrom_nil]

theorem match?_take (hp : Firm p) (hlead : Lead first lead) (hw : Takes p w t)
    (hn : (lead ++ (w ++ t)).length ≤ n) :
    match? n (atTokenStart p) first (lead ++ (w ++ t)) = some ⟨false, t, [(1, w ++ t, t)]⟩ := by
  obtain ⟨c, r, rfl, -⟩ := hp.head hw.language
  have hgroup (first : Bool) : (outcomes n (group 1 p) ⟨first, c :: r ++ t, []⟩).head? =
      some ⟨false, t, [(1, c :: r ++ t, t)]⟩ := by
    rw [outcomes, List.head?_map, hw n first [] (le_trans (by simp) hn)]
    simp
  have hgap {d : Char} (hd : isGap d = true) (s : List Char) :
      outcomes n (group 1 p) ⟨first, d :: s, []⟩ = [] := by
    refine outcomes_of_refuses fun w rest hsplit hlang => ?_
    obtain ⟨e, r, rfl, he⟩ := hp.head hlang
    obtain ⟨rfl, -⟩ := List.cons.inj hsplit
    rw [isStop_of_isGap hd] at he
    contradiction
  rw [match?_eq_head?, atTokenStart, outcomes.eq_6]
  obtain ⟨rfl, rfl⟩ | ⟨d, rfl, hd⟩ := hlead
  · have hstart : outcomes n (alt startOfText (char isGap)) ⟨true, c :: r ++ t, []⟩ =
        ⟨true, c :: r ++ t, []⟩ :: outcomes n (char isGap) ⟨true, c :: r ++ t, []⟩ := rfl
    rw [List.nil_append, hstart, List.flatMap_cons, List.head?_append, hgroup]
    rfl
  · have hchar : outcomes n (char isGap) ⟨first, d :: (c :: r ++ t), []⟩ =
        [⟨false, c :: r ++ t, []⟩] := by simp [outcomes, hd]
    have hstart : outcomes n (alt startOfText (char isGap)) ⟨first, d :: (c :: r ++ t), []⟩ =
        outcomes n startOfText ⟨first, d :: (c :: r ++ t), []⟩ ++ [⟨false, c :: r ++ t, []⟩] := by
      rw [← hchar]
      rfl
    have hnone : (outcomes n startOfText ⟨first, d :: (c :: r ++ t), []⟩).flatMap
        (outcomes n (group 1 p)) = [] := by
      cases first
      · rfl
      · simpa [outcomes.eq_2] using hgap hd _
    rw [List.singleton_append, hstart, List.flatMap_append, hnone, List.nil_append,
      List.flatMap_singleton, hgroup]

theorem endsToken_iff : endsToken t = true ↔ ∀ c ∈ t.head?, isBlank c = true ∨ c = '/' := by
  cases t <;> simp [endsToken]

theorem endsToken_of_stop (ht : Stop t) : endsToken t = true := by
  cases t with
  | nil => rfl
  | cons c t =>
    have hblank : stops.all (fun c => isBlank c || c == '/') = true := by decide
    exact List.all_eq_true.mp hblank c (mem_stops.mp (ht c rfl))

theorem tokensFrom_of_match (h : match? n (atTokenStart p) first (w ++ t) = some stop)
    (ht : stop.rest = t) (hw : w ≠ []) :
    tokensFrom n p first (w ++ t) = (token? ⟨w, stop⟩).toList ++ tokensFrom n p false t := by
  rw [tokensFrom, piecesFrom_found h ht hw, List.filterMap_cons]
  simp only [Piece.match?, Option.bind_some]
  cases token? ⟨w, stop⟩ <;> rfl

theorem tokensFrom_take (hp : Firm p) (hlead : Lead first lead) (hw : Takes p w t)
    (ht : endsToken t = true) (hn : (lead ++ (w ++ t)).length ≤ n) :
    tokensFrom n p first (lead ++ (w ++ t)) = w :: tokensFrom n p false t := by
  have hmatch := match?_take hp hlead hw hn
  obtain ⟨c, r, rfl, -⟩ := hp.head hw.language
  rw [← List.append_assoc] at hmatch ⊢
  have htoken : token? ⟨lead ++ c :: r, ⟨false, t, [(1, c :: r ++ t, t)]⟩⟩ = some (c :: r) := by
    rw [token?, Match.rest, if_pos ht]
    exact congrArg some (between_append _ _)
  rw [tokensFrom_of_match hmatch rfl (by simp), htoken]
  rfl

theorem tokensFrom_behind (hlead : lead = [] ∨ ∃ d, lead = [d] ∧ isGap d = true)
    (hs : c :: s = lead ++ (w ++ t)) (hne : w ≠ []) (hw : ∀ c ∈ w, isGap c = false) :
    tokensFrom n p false s = tokensFrom n p false t := by
  obtain rfl | ⟨d, rfl, -⟩ := hlead
  · obtain ⟨d, r, rfl⟩ := List.exists_cons_of_ne_nil hne
    obtain ⟨-, rfl⟩ := List.cons.inj hs
    exact tokensFrom_inside (List.forall_mem_cons.mp hw).2 t
  · obtain ⟨-, rfl⟩ := List.cons.inj hs
    exact tokensFrom_inside hw t

/-- Whatever of a word the pattern matches is no token, since it ends within the word. -/
def Passes (p : Pattern) (w t : List Char) : Prop :=
  ∀ v rest, w ++ t = v ++ rest → Language p v → v.length < w.length ∧ endsToken rest = false

/-- A word without a token is passed over, wherever it stands. -/
theorem tokensFrom_skip (hp : Firm p) (hlead : lead = [] ∨ ∃ d, lead = [d] ∧ isGap d = true)
    (hne : w ≠ []) (hw : ∀ c ∈ w, isGap c = false) (hpass : Passes p w t) :
    tokensFrom n p first (lead ++ (w ++ t)) = tokensFrom n p false t := by
  cases hmatch : match? n (atTokenStart p) first (lead ++ (w ++ t)) with
  | none =>
    obtain ⟨c, s, hs⟩ : ∃ c s, lead ++ (w ++ t) = c :: s :=
      List.exists_cons_of_ne_nil (by simp [hne])
    rw [hs] at hmatch ⊢
    rw [tokensFrom_of_none hmatch, tokensFrom_behind hlead hs.symm hne hw]
  | some stop =>
    obtain ⟨lead', v, hsplit, hlead', hlang⟩ := match?_cases hmatch
    obtain ⟨c, r, rfl, hc⟩ := hp.head hlang
    obtain rfl : lead = lead' := by
      obtain ⟨x, w, rfl⟩ := List.exists_cons_of_ne_nil hne
      exact lead_unique hlead (hlead'.imp_left And.left) (hw x List.mem_cons_self)
        (not_isGap_of_not_isStop hc) hsplit
    have hwt := List.append_cancel_left hsplit
    obtain ⟨hlength, hends⟩ := hpass _ _ hwt hlang
    obtain ⟨y, rfl⟩ : c :: r <+: w :=
      List.prefix_of_prefix_length_le ⟨stop.rest, hwt.symm⟩ ⟨t, rfl⟩ hlength.le
    have hrest : y ++ t = stop.rest := by simpa using hwt
    have hnot : token? ⟨lead ++ c :: r, stop⟩ = none := by
      rw [token?, Match.rest, if_neg (by rw [hends]; simp)]
    have htext : lead ++ (c :: r ++ y ++ t) = lead ++ c :: r ++ (y ++ t) := by simp
    rw [htext] at hmatch ⊢
    rw [tokensFrom_of_match hmatch hrest.symm (by simp), hnot]
    exact tokensFrom_inside (fun d hd => hw d (List.mem_append_right _ hd)) t

/-- Wherever a token may begin the text adds the tokens `ws`. -/
def Adds (p : Pattern) (s : List Char) (ws : List (List Char)) : Prop :=
  ∀ n first lead t, Lead first lead → Stop t → (lead ++ (s ++ t)).length ≤ n →
    tokensFrom n p first (lead ++ (s ++ t)) = ws ++ tokensFrom n p false t

/-- The text adds no tokens, whatever stands before it. -/
def Skips (p : Pattern) (s : List Char) : Prop :=
  ∀ n first lead t, (lead = [] ∨ ∃ d, lead = [d] ∧ isGap d = true) → Stop t →
    tokensFrom n p first (lead ++ (s ++ t)) = tokensFrom n p false t

theorem Skips.adds (h : Skips p s) : Adds p s [] := by
  intro n first lead t hlead ht _
  rw [List.nil_append]
  exact h n first lead t (hlead.imp_left And.left) ht

theorem Adds.token (hp : Firm p) (hw : ∀ t, Stop t → Takes p w t) : Adds p w [w] :=
  fun _ _ _ _ hlead ht hn => tokensFrom_take hp hlead (hw _ ht) (endsToken_of_stop ht) hn

theorem Skips.word (hp : Firm p) (hne : w ≠ []) (hw : ∀ c ∈ w, isGap c = false)
    (hpass : ∀ t, Stop t → Passes p w t) : Skips p w :=
  fun _ _ _ _ hlead ht => tokensFrom_skip hp hlead hne hw (hpass _ ht)

theorem Skips.space (hp : Firm p) : Skips p [' '] := by
  intro n first lead t hlead ht
  have hspace (first : Bool) : tokensFrom n p first ([' '] ++ t) = tokensFrom n p false t :=
    tokensFrom_stop hp (by decide) fun _ => ht
  obtain rfl | ⟨d, rfl, hd⟩ := hlead
  · exact hspace first
  · rw [List.singleton_append, tokensFrom_stop hp (isStop_of_isGap hd), hspace]
    rintro - c ⟨⟩
    decide

theorem stop_append_cons (hgap : ∀ c ∈ gap, isGap c = true) {c : Char} (hc : isStop c = true)
    (s : List Char) : Stop (gap ++ c :: s) := by
  by_cases hne : gap = []
  · rw [hne]
    rintro d ⟨⟩
    exact hc
  · exact stop_of_gap hgap hne _

theorem Adds.joined (hp : Firm p) (h : List.Forall₂ (Adds p) texts wss) (hs : Joined texts s)
    (hne : texts ≠ []) : Adds p s wss.flatten := by
  induction hs generalizing wss with
  | nil => exact absurd rfl hne
  | single w =>
    cases h with
    | cons hw hnil =>
      cases hnil
      simpa using hw
  | @cons w gap s texts hgap hnegap htexts hs ih =>
    cases h with
    | @cons _ v _ wss hw hwss =>
      intro n first lead t hlead ht hn
      have hlength : (d : Char) → ([d] ++ (s ++ t)).length ≤ n := fun d => by
        obtain ⟨e, gap, rfl⟩ := List.exists_cons_of_ne_nil hnegap
        simp only [List.length_append, List.length_cons, List.length_nil] at hn ⊢
        omega
      obtain ⟨d, first', hd, hlast⟩ :=
        exists_last_gap n false hp hgap hnegap (s ++ t)
      have hrest := ih hwss htexts n first' [d] t (.inr ⟨d, rfl, hd⟩) ht (hlength d)
      rw [List.append_assoc, List.append_assoc] at hn ⊢
      rw [hw n first lead _ hlead (stop_of_gap hgap hnegap _) hn, hlast,
        ← List.singleton_append, hrest, List.flatten_cons, List.append_assoc]

theorem Skips.joined (hp : Firm p) (h : ∀ w ∈ texts, Skips p w) (hs : Joined texts s)
    (hne : texts ≠ []) : Skips p s := by
  induction hs with
  | nil => exact absurd rfl hne
  | single w => exact h w List.mem_cons_self
  | @cons w gap s texts hgap hnegap htexts hs ih =>
    intro n first lead t hlead ht
    obtain ⟨hw, htexts'⟩ := List.forall_mem_cons.mp h
    obtain ⟨d, first', hd, hlast⟩ :=
      exists_last_gap n false hp hgap hnegap (s ++ t)
    rw [List.append_assoc, List.append_assoc, hw n first lead _ hlead (stop_of_gap hgap hnegap _),
      hlast, ← List.singleton_append, ih htexts' htexts n first' [d] t (.inr ⟨d, rfl, hd⟩) ht]

theorem tokensFrom_slash (hp : Firm p) (hgap : ∀ c ∈ gap, isGap c = true) (s : List Char) :
    tokensFrom n p first (gap ++ '/' :: s) = tokensFrom n p false s := by
  induction gap generalizing first with
  | nil => exact tokensFrom_stop hp (by decide) fun h => absurd h (by decide)
  | cons c gap ih =>
    obtain ⟨hc, hgap⟩ := List.forall_mem_cons.mp hgap
    rw [List.cons_append, tokensFrom_stop hp (isStop_of_isGap hc)
      fun _ => stop_append_cons hgap (by decide) s]
    exact ih hgap

theorem Skips.slash (hp : Firm p) (hs : Skips p s) (hw : Skips p w)
    (hgap : ∀ c ∈ gap, isGap c = true) (hgap' : ∀ c ∈ gap', isGap c = true) :
    Skips p (s ++ (gap ++ '/' :: (gap' ++ w))) := by
  intro n first lead t hlead ht
  have htext : s ++ (gap ++ '/' :: (gap' ++ w)) ++ t =
      s ++ (gap ++ '/' :: (gap' ++ (w ++ t))) := by simp
  rw [htext, hs n first lead _ hlead (stop_append_cons hgap (by decide) _),
    tokensFrom_slash hp hgap]
  by_cases hne : gap' = []
  · rw [hne]
    exact hw n false [] t (.inl rfl) ht
  · obtain ⟨d, first', hd, hlast⟩ := exists_last_gap n false hp hgap' hne (w ++ t)
    rw [hlast]
    exact hw n first' [d] t (.inr ⟨d, rfl, hd⟩) ht

theorem Adds.tokens (hp : Firm p) (h : Adds p s ws) (hgap : ∀ c ∈ gap, isGap c = true)
    (hgap' : ∀ c ∈ gap', isGap c = true) : tokens p (gap ++ (s ++ gap')) = ws := by
  have hstop : Stop gap' := by
    by_cases hne : gap' = []
    · rw [hne]
      simp [Stop]
    · simpa using stop_of_gap hgap' hne []
  rw [tokens_eq]
  by_cases hne : gap = []
  · have hadds := h (s ++ gap').length true [] gap' (.inl ⟨rfl, rfl⟩) hstop le_rfl
    rw [tokensFrom_gap hp hgap', List.append_nil] at hadds
    rw [hne]
    exact hadds
  · obtain ⟨d, first', hd, hlast⟩ := exists_last_gap (gap ++ (s ++ gap')).length true hp hgap hne
      (s ++ gap')
    have hlength : ([d] ++ (s ++ gap')).length ≤ (gap ++ (s ++ gap')).length := by
      obtain ⟨e, gap, rfl⟩ := List.exists_cons_of_ne_nil hne
      simp
    have hadds := h _ first' [d] gap' (.inr ⟨d, rfl, hd⟩) hstop hlength
    rw [tokensFrom_gap hp hgap', List.append_nil] at hadds
    rw [hlast]
    exact hadds

end StyleFold.BackgroundShorthand
