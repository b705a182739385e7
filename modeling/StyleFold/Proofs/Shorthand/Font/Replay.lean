import StyleFold.Proofs.Shorthand.Font.Slots

/-!
A font with narrow gaps is matched in the same way as the font with wide gaps that it comes from. What
the pattern of the font goes over is followed slot by slot. At each slot either both matches take it, or
the match with the wide gaps has failed to take it, and then so does the one with the narrow gaps.
-/
namespace StyleFold.FontShorthand
open Text Pattern

variable {n : Nat} {p q : Pattern} {c d m : Cursor} {s t u v w gap : List Char} {slot' : FontSlot}
  {new : List (Nat × List Char)} {first : Bool} {groups : List (Nat × List Char × List Char)}

def finish (n : Nat) : Continuation Cursor := fun c =>
  run n (Pattern.all [many isGap, endOfText]) c some

def texts (groups : List (Nat × List Char × List Char)) : List (Nat × List Char) :=
  groups.map fun g => (g.1, Cursor.between g.2.1 g.2.2)

/-- The text is one that the pattern matches, with a gap at most behind it. -/
def Accepts (p : Pattern) (s : List Char) : Prop :=
  ∃ w gap, s = w ++ gap ∧ Language p w ∧ ∀ c ∈ gap, isGap c = true

/-- `s` is `t` with wider gaps and maybe a gap behind it. -/
def Widened (s t : List Char) : Prop :=
  ∃ w gap, s = w ++ gap ∧ (∀ c ∈ gap, isGap c = true) ∧ Widens w t

theorem finish_eq_some (h : finish n c = some m) :
    (∀ x ∈ c.rest, isGap x = true) ∧ m.groups = c.groups := by
  obtain ⟨e, he, hnext⟩ := exists_of_run_seq h
  obtain ⟨⟨w, hw, hgap⟩, -⟩ := went_of_mem he
  have hgroups := (went_of_mem he).groups_eq rfl
  change run n endOfText e some = some m at hnext
  rw [run] at hnext
  split at hnext
  · rename_i hempty
    obtain rfl := Option.some.inj hnext
    rw [List.isEmpty_iff] at hempty
    rw [hempty, List.append_nil] at hw
    exact ⟨hw ▸ hgap, hgroups⟩
  · contradiction

theorem finish_ne_none (h : ∀ x ∈ c.rest, isGap x = true) : finish n c ≠ none := by
  obtain ⟨first, rest, groups⟩ := c
  obtain ⟨⟨first', -, groups'⟩, hd, rfl⟩ :
      ∃ d ∈ outcomes n (many isGap) ⟨first, rest ++ [], groups⟩, d.rest = [] :=
    exists_mem_spanOutcomes h []
  rw [List.append_nil] at hd
  have hnext : run n endOfText ⟨first', [], groups'⟩ some ≠ none := by simp [run]
  obtain ⟨r, hr⟩ := @exists_run n (many isGap) _ _ _ (fun e => run n endOfText e some) hd hnext
  have hfinish : finish n ⟨first, rest, groups⟩ = some r := hr
  rw [hfinish]
  simp

theorem accepts_of_run (h : run n p c (finish n) = some m) : Accepts p c.rest := by
  obtain ⟨d, hd, hnext⟩ := exists_of_run h
  obtain ⟨⟨w, hw, hlang⟩, -⟩ := went_of_mem hd
  exact ⟨w, d.rest, hw, hlang, (finish_eq_some hnext).1⟩

theorem exists_run_of_accepts (hp : p.isFloating = true) (h : Accepts p s) (hn : s.length ≤ n) :
    ∃ m, run n p ⟨first, s, groups⟩ (finish n) = some m := by
  obtain ⟨w, gap, rfl, hlang, hgap⟩ := h
  obtain ⟨d, hd, rfl⟩ := exists_mem_outcomes hp hlang hn
  exact exists_run hd (finish_ne_none hgap)

theorem Accepts.head (h : Accepts p s) {f : Char → Bool} (hp : Starts f p) :
    ∃ c r, s = c :: r ∧ f c = true := by
  obtain ⟨w, gap, rfl, hlang, -⟩ := h
  obtain ⟨c, r, rfl, hc⟩ := hp w hlang
  exact ⟨c, r ++ gap, rfl, hc⟩

theorem Accepts.mono (h : Accepts p s) (hlang : ∀ w, Language p w → Language q w) :
    Accepts q s := by
  obtain ⟨w, gap, rfl, hw, hgap⟩ := h
  exact ⟨w, gap, rfl, hlang w hw, hgap⟩

theorem Accepts.behind (h : Accepts q t) (hw : Language p w) : Accepts (seq p q) (w ++ t) := by
  obtain ⟨v, gap, rfl, hv, hgap⟩ := h
  exact ⟨w ++ v, gap, by simp, ⟨w, v, rfl, hw, hv⟩, hgap⟩

theorem Accepts.widened (hp : Loose p) (h : Accepts p t) (hs : Widened s t) : Accepts p s := by
  obtain ⟨w, gap, rfl, hlang, hgap⟩ := h
  obtain ⟨x, gap', rfl, hgap', hx⟩ := hs
  obtain ⟨w', g, rfl, hw', hg⟩ := hx.split
  exact ⟨w', g ++ gap', by simp, hp w' w hw' hlang,
    List.forall_mem_append.mpr ⟨hg.gaps hgap, hgap'⟩⟩

/-- However the pattern is run on the text up to its end, it catches these groups. -/
structure Replays (p : Pattern) (t : List Char) (new : List (Nat × List Char)) : Prop where
  accepted : Accepts p t
  caught : ∀ n first groups m, t.length ≤ n → run n p ⟨first, t, groups⟩ (finish n) = some m →
    texts m.groups = new ++ texts groups

/-- The text `t` has the gaps of the rest at `c` narrowed, and it is matched in the way that led from
`c` to `m`. -/
structure Follows (p : Pattern) (c m : Cursor) (t : List Char) (new : List (Nat × List Char)) :
    Prop where
  wide : Widened c.rest t
  groups : texts m.groups = new ++ texts c.groups
  replays : Replays p t new

theorem texts_cons (index : Nat) (w t : List Char) (groups : List (Nat × List Char × List Char)) :
    texts ((index, w ++ t, t) :: groups) = (index, w) :: texts groups := by
  rw [texts, List.map_cons, between_append]
  rfl

theorem Footed.eq_append (hw : Footed (w ++ gap)) (hgap : ∀ c ∈ gap, isGap c = true) :
    gap = [] := by
  by_contra hne
  obtain ⟨c, hc, hblank⟩ := hw
  rw [List.getLast?_append_of_ne_nil _ hne] at hc
  rw [isBlank_of_isGap (hgap c (List.mem_of_getLast? hc))] at hblank
  contradiction

theorem replays_last (hw : Language (slot slot') w) :
    Replays (slotGroup slot') w [(slot'.group, w)] := by
  refine ⟨⟨w, [], (List.append_nil w).symm, hw, nofun⟩, fun n first groups m _ h => ?_⟩
  obtain ⟨d, hd, hnext⟩ := exists_of_run h
  obtain ⟨e, he, rfl⟩ := mem_outcomes_group.mp hd
  obtain ⟨hgap, hgroups⟩ := finish_eq_some hnext
  obtain ⟨⟨u, hu, hlang⟩, -⟩ := went_of_mem he
  dsimp only at hu hgap hgroups
  have hnil : e.rest = [] := (hu ▸ footed_slot hw).eq_append hgap
  rw [hgroups, (went_of_mem he).groups_eq (subgroups_slot slot'), hnil]
  rw [hnil, List.append_nil] at hu
  have htexts := texts_cons slot'.group w [] groups
  rwa [List.append_nil] at htexts

theorem follows_last (h : run n (slotGroup slot') c (finish n) = some m) :
    ∃ w, Follows (slotGroup slot') c m w [(slot'.group, w)] := by
  obtain ⟨d, hd, hnext⟩ := exists_of_run h
  obtain ⟨e, he, rfl⟩ := mem_outcomes_group.mp hd
  obtain ⟨hgap, hgroups⟩ := finish_eq_some hnext
  obtain ⟨⟨w, hw, hlang⟩, -⟩ := went_of_mem he
  refine ⟨w, ⟨w, e.rest, hw, hgap, .refl w⟩, ?_, replays_last hlang⟩
  rw [hgroups, (went_of_mem he).groups_eq (subgroups_slot slot'), hw, texts_cons]
  rfl

/-- A word in front of a stop is the only text without stops there. -/
theorem eq_of_stops {a b : List Char} (h : u ++ a = w ++ b) (hu : ∀ c ∈ u, isStop c = false)
    (hw : ∀ c ∈ w, isStop c = false) (ha : ∃ c r, a = c :: r ∧ isStop c = true)
    (hb : ∃ c r, b = c :: r ∧ isStop c = true) : u = w ∧ a = b := by
  obtain ⟨c, r, rfl, hc⟩ := ha
  obtain ⟨d, r', rfl, hd⟩ := hb
  have hnot {x y : List Char} {e : Char} {z : List Char} (hx : x = y ++ e :: z)
      (hall : ∀ c ∈ x, isStop c = false) (he : isStop e = true) : False := by
    rw [hall e (by simp [hx])] at he
    contradiction
  obtain ⟨x, hx, hrest⟩ | ⟨x, hx, hrest⟩ := List.append_eq_append_iff.mp h
  · cases x with
    | nil => exact ⟨by simpa using hx.symm, by simpa using hrest⟩
    | cons e x =>
      obtain ⟨rfl, -⟩ := List.cons.inj hrest
      exact (hnot hx hw hc).elim
  · cases x with
    | nil => exact ⟨by simpa using hx, by simpa using hrest.symm⟩
    | cons e x =>
      obtain ⟨rfl, -⟩ := List.cons.inj hrest
      exact (hnot hx hu hd).elim

theorem exists_run_behind_word (hslot : slot' ≠ .family) (hq : Starts isStop q)
    (hw : ∀ c ∈ w, isStop c = false) (ht : ∃ c r, t = c :: r ∧ isStop c = true)
    (h : run n (seq (slotGroup slot') q) ⟨first, w ++ t, groups⟩ (finish n) = some m) :
    Language (slot slot') w ∧
      ∃ first', run n q ⟨first', t, (slot'.group, w ++ t, t) :: groups⟩ (finish n) = some m := by
  obtain ⟨d, hd, hnext⟩ := exists_of_run_seq h
  obtain ⟨e, he, rfl⟩ := mem_outcomes_group.mp hd
  obtain ⟨⟨u, hu, hlang⟩, -⟩ := went_of_mem he
  have hgroups := (went_of_mem he).groups_eq (subgroups_slot slot')
  obtain ⟨rfl, hrest⟩ := eq_of_stops hu.symm ((solid_slot hslot).not_isStop hlang) hw
    ((accepts_of_run hnext).head hq) ht
  obtain ⟨first', rest, groups'⟩ := e
  dsimp only at hrest hgroups hnext
  subst hrest hgroups
  exact ⟨hlang, first', hnext⟩

theorem Replays.word (hslot : slot' ≠ .family) (hq : Starts isStop q)
    (hw : Language (slot slot') w) (h : Replays q t new) :
    Replays (seq (slotGroup slot') q) (w ++ t) (new ++ [(slot'.group, w)]) := by
  refine ⟨h.accepted.behind hw, fun n first groups m hn hm => ?_⟩
  obtain ⟨-, first', hm⟩ := exists_run_behind_word hslot hq ((solid_slot hslot).not_isStop hw)
    (h.accepted.head hq) hm
  rw [h.caught _ _ _ _ (le_trans (by simp) hn) hm, texts_cons, List.append_assoc]
  rfl

theorem follows_word (hslot : slot' ≠ .family) (hq : Starts isStop q)
    (h : run n (seq (slotGroup slot') q) c (finish n) = some m) :
    ∃ w d, run n q d (finish n) = some m ∧ d.rest.length ≤ c.rest.length ∧
      ∀ t new, Follows q d m t new →
        Follows (seq (slotGroup slot') q) c m (w ++ t) (new ++ [(slot'.group, w)]) := by
  obtain ⟨d, hd, hnext⟩ := exists_of_run_seq h
  obtain ⟨e, he, rfl⟩ := mem_outcomes_group.mp hd
  obtain ⟨⟨w, hw, hlang⟩, -⟩ := went_of_mem he
  have hgroups := (went_of_mem he).groups_eq (subgroups_slot slot')
  refine ⟨w, _, hnext, by simp [hw], fun t new hfollows => ?_⟩
  obtain ⟨⟨x, gap, hx, hgap, hwiden⟩, htexts, hreplays⟩ := hfollows
  refine ⟨⟨w ++ x, gap, ?_, hgap, (Widens.refl w).append hwiden⟩, ?_,
    hreplays.word hslot hq hlang⟩
  · dsimp only at hx
    rw [hw, hx, List.append_assoc]
  · rw [htexts, hw, hgroups, texts_cons, List.append_assoc]
    rfl

theorem language_space : Language (many1 isGap) [' '] :=
  ⟨[' '], [], rfl, ⟨' ', rfl, rfl⟩, nofun⟩

theorem exists_run_behind_space (ht : ∃ c r, t = c :: r ∧ (!isGap c) = true)
    (h : run n (seq (many1 isGap) q) ⟨first, ' ' :: t, groups⟩ (finish n) = some m) :
    ∃ first', run n q ⟨first', t, groups⟩ (finish n) = some m := by
  obtain ⟨⟨first', rest, groups'⟩, hd, hnext⟩ := exists_of_run_seq h
  obtain ⟨⟨u, hu, hlang⟩, -⟩ := went_of_mem hd
  have hgroups := (went_of_mem hd).groups_eq rfl
  have hgap : ∀ c ∈ u, isGap c = true := Within.many1 (fun _ => id) u hlang
  obtain ⟨e, r, rfl, he⟩ := ht
  obtain ⟨y, u, rfl⟩ := List.exists_cons_of_ne_nil (Filled.many1 u hlang)
  obtain ⟨-, hrest⟩ := List.cons.inj hu
  cases u with
  | cons z u =>
    obtain ⟨rfl, -⟩ := List.cons.inj hrest
    rw [hgap e (by simp)] at he
    contradiction
  | nil =>
    change e :: r = rest at hrest
    dsimp only at hgroups
    subst hrest hgroups
    exact ⟨first', hnext⟩

theorem Replays.space (hq : Starts (fun c => !isGap c) q) (h : Replays q t new) :
    Replays (seq (many1 isGap) q) (' ' :: t) new := by
  refine ⟨h.accepted.behind language_space, fun n first groups m hn hm => ?_⟩
  obtain ⟨first', hm⟩ := exists_run_behind_space (h.accepted.head hq) hm
  exact h.caught _ _ _ _ (le_trans (by simp) hn) hm

theorem starts_gap (q : Pattern) : Starts isStop (seq (many1 isGap) q) :=
  (Starts.many1 fun _ => isStop_of_isGap).seq q

theorem follows_gap (hq : Starts (fun c => !isGap c) q)
    (h : run n (seq (many1 isGap) q) c (finish n) = some m) :
    ∃ d, run n q d (finish n) = some m ∧ d.rest.length ≤ c.rest.length ∧
      ∀ t new, Follows q d m t new → Follows (seq (many1 isGap) q) c m (' ' :: t) new := by
  obtain ⟨d, hd, hnext⟩ := exists_of_run_seq h
  obtain ⟨⟨w, hw, hlang⟩, -⟩ := went_of_mem hd
  have hgroups := (went_of_mem hd).groups_eq rfl
  have hgap : ∀ c ∈ w, isGap c = true := Within.many1 (fun _ => id) w hlang
  refine ⟨d, hnext, by simp [hw], fun t new hfollows => ?_⟩
  obtain ⟨⟨x, gap, hx, hgap', hwiden⟩, htexts, hreplays⟩ := hfollows
  refine ⟨⟨w ++ x, gap, ?_, hgap', .gap hgap (Filled.many1 w hlang) hwiden⟩, ?_, hreplays.space hq⟩
  · rw [hw, hx, List.append_assoc]
  · rw [htexts, hgroups]

theorem Replays.congr (h : Replays p t new) (hlang : ∀ w, Language p w → Language q w)
    (hrun : ∀ n c (next : Continuation Cursor), run n q c next = run n p c next) :
    Replays q t new :=
  ⟨h.accepted.mono hlang, fun n first groups m hn hm =>
    h.caught n first groups m hn (hrun n _ _ ▸ hm)⟩

theorem Follows.congr (h : Follows p c m t new) (hlang : ∀ w, Language p w → Language q w)
    (hrun : ∀ n c (next : Continuation Cursor), run n q c next = run n p c next) :
    Follows q c m t new :=
  ⟨h.wide, h.groups, h.replays.congr hlang hrun⟩

theorem Accepts.alt_left (h : Accepts p t) : Accepts (alt p q) t :=
  h.mono fun _ => .inl

theorem Accepts.alt_right (h : Accepts q t) : Accepts (alt p q) t :=
  h.mono fun _ => .inr

theorem run_alt_left (hp : p.isFloating = true) (h : Accepts p t) (hn : t.length ≤ n) :
    run n (alt p q) ⟨first, t, groups⟩ (finish n) = run n p ⟨first, t, groups⟩ (finish n) := by
  obtain ⟨r, hr⟩ := @exists_run_of_accepts n p t first groups hp h hn
  rw [run_alt, hr, Option.some_or]

theorem run_alt_right (h : ¬Accepts p t) :
    run n (alt p q) ⟨first, t, groups⟩ (finish n) = run n q ⟨first, t, groups⟩ (finish n) := by
  have hnone : run n p ⟨first, t, groups⟩ (finish n) = none :=
    Option.eq_none_iff_forall_ne_some.mpr fun r hr => h (accepts_of_run hr)
  rw [run_alt, hnone, Option.none_or]

theorem Replays.alt_left (hp : p.isFloating = true) (h : Replays p t new) :
    Replays (alt p q) t new :=
  ⟨h.accepted.alt_left, fun n first groups m hn hm =>
    h.caught n first groups m hn (run_alt_left hp h.accepted hn ▸ hm)⟩

theorem Replays.alt_right (hnot : ¬Accepts p t) (h : Replays q t new) : Replays (alt p q) t new :=
  ⟨h.accepted.alt_right, fun n first groups m hn hm =>
    h.caught n first groups m hn (run_alt_right hnot ▸ hm)⟩

/-- Both matches take the same alternative. Where the first one fails with wide gaps it fails with
narrow ones. -/
theorem follows_alt (hfloating : p.isFloating = true) (hloose : Loose p) (hn : c.rest.length ≤ n)
    (h : run n (alt p q) c (finish n) = some m) :
    (run n p c (finish n) = some m ∧ ∀ t new, Follows p c m t new → Follows (alt p q) c m t new) ∨
      run n q c (finish n) = some m ∧ ∀ t new, Follows q c m t new → Follows (alt p q) c m t new := by
  rw [run_alt] at h
  cases hp : run n p c (finish n) with
  | some m' =>
    rw [hp, Option.some_or] at h
    exact .inl ⟨h, fun t new hfollows =>
      ⟨hfollows.wide, hfollows.groups, hfollows.replays.alt_left hfloating⟩⟩
  | none =>
    rw [hp, Option.none_or] at h
    refine .inr ⟨h, fun t new hfollows =>
      ⟨hfollows.wide, hfollows.groups, hfollows.replays.alt_right fun haccepts => ?_⟩⟩
    obtain ⟨r, hr⟩ := exists_run_of_accepts hfloating (haccepts.widened hloose hfollows.wide) hn
    rw [hp] at hr
    contradiction

theorem run_optional (n : Nat) (p q : Pattern) (c : Cursor) (next : Continuation Cursor) :
    run n (seq (optional p) q) c next = run n (alt (seq p q) q) c next :=
  rfl

theorem language_optional (h : Language (alt (seq p q) q) w) : Language (seq (optional p) q) w := by
  obtain ⟨x, y, rfl, hx, hy⟩ | hw := h
  · exact ⟨x, y, rfl, .inl hx, hy⟩
  · exact ⟨[], w, rfl, .inr rfl, hw⟩

theorem follows_optional (hfloating : (seq p q).isFloating = true) (hloose : Loose (seq p q))
    (hn : c.rest.length ≤ n) (h : run n (seq (optional p) q) c (finish n) = some m) :
    (run n (seq p q) c (finish n) = some m ∧ ∀ t new, Follows (seq p q) c m t new →
        Follows (seq (optional p) q) c m t new) ∨
      run n q c (finish n) = some m ∧ ∀ t new, Follows q c m t new →
        Follows (seq (optional p) q) c m t new := by
  have hcongr {t : List Char} {new : List (Nat × List Char)}
      (h : Follows (alt (seq p q) q) c m t new) : Follows (seq (optional p) q) c m t new :=
    h.congr (fun _ => language_optional) fun _ _ _ => run_optional ..
  rw [run_optional] at h
  obtain ⟨h, hfollows⟩ | ⟨h, hfollows⟩ := follows_alt hfloating hloose hn h
  · exact .inl ⟨h, fun t new ht => hcongr (hfollows t new ht)⟩
  · exact .inr ⟨h, fun t new ht => hcongr (hfollows t new ht)⟩

def lead (o : Option (List Char)) (t : List Char) : List Char :=
  match o with
  | some w => w ++ ' ' :: t
  | none => t

def caughtBy (s : FontSlot) (o : Option (List Char)) : List (Nat × List Char) :=
  o.toList.map fun w => (s.group, w)

theorem isFloating_slotGroup (s : FontSlot) : (slotGroup s).isFloating = true :=
  isFloating_slot s

theorem loose_slotGroup (s : FontSlot) : Loose (slotGroup s) :=
  loose_slot s

theorem starts_slotGroup (s : FontSlot) : Starts (fun c => !isGap c) (slotGroup s) :=
  starts_slot s

/-- What stands behind a gap: it holds no anchors, its own gaps may be wider, and it begins with none. -/
structure Regular (q : Pattern) : Prop where
  floating : q.isFloating = true
  loose : Loose q
  starts : Starts (fun c => !isGap c) q

theorem isFloating_gap_seq (hq : q.isFloating = true) : (seq (many1 isGap) q).isFloating = true :=
  hq

namespace Regular

theorem slotGroup_seq (s : FontSlot) (hfloating : q.isFloating = true) (hloose : Loose q) :
    Regular (seq (slotGroup s) q) where
  floating := Bool.and_eq_true_iff.mpr ⟨isFloating_slotGroup s, hfloating⟩
  loose := (loose_slotGroup s).seq hloose
  starts := (starts_slotGroup s).seq q

theorem before_gap (s : FontSlot) : Regular (seq (slotGroup s) (many1 isGap)) :=
  slotGroup_seq s rfl .gaps1

theorem before_gap_seq (s : FontSlot) (hq : Regular q) :
    Regular (seq (seq (slotGroup s) (many1 isGap)) q) where
  floating := Bool.and_eq_true_iff.mpr ⟨(before_gap s).floating, hq.floating⟩
  loose := (before_gap s).loose.seq hq.loose
  starts := (before_gap s).starts.seq q

theorem leading_seq (s : FontSlot) (hq : Regular q) : Regular (seq (leading s) q) where
  floating := Bool.and_eq_true_iff.mpr
    ⟨(isFloating_optional _).trans (before_gap s).floating, hq.floating⟩
  loose := (before_gap s).loose.optional.seq hq.loose
  starts := (before_gap s).starts.optional_seq hq.starts

end Regular

theorem language_assoc {a b : Pattern} (h : Language (seq a (seq b q)) w) :
    Language (seq (seq a b) q) w := by
  obtain ⟨x, _, rfl, hx, y, z, rfl, hy, hz⟩ := h
  exact ⟨x ++ y, z, by simp, ⟨x, y, rfl, hx, hy⟩, hz⟩

theorem follows_assoc {a b q : Pattern} {t : List Char} (h : Follows (seq a (seq b q)) c m t new) :
    Follows (seq (seq a b) q) c m t new :=
  h.congr (fun _ => language_assoc) fun _ _ _ => rfl

theorem follows_leading (hslot : slot' ≠ .family) (hq : Regular q) (hn : c.rest.length ≤ n)
    (h : run n (seq (leading slot') q) c (finish n) = some m) :
    ∃ o d, run n q d (finish n) = some m ∧ d.rest.length ≤ c.rest.length ∧
      ∀ t new, Follows q d m t new →
        Follows (seq (leading slot') q) c m (lead o t) (new ++ caughtBy slot' o) := by
  have hall := hq.before_gap_seq slot'
  obtain ⟨h, hfollows⟩ | ⟨h, hfollows⟩ := follows_optional hall.floating hall.loose hn h
  · obtain ⟨w, d, h, hd, hword⟩ := follows_word hslot (starts_gap q) h
    obtain ⟨e, h, he, hgap⟩ := follows_gap hq.starts h
    refine ⟨some w, e, h, he.trans hd, fun t new ht => ?_⟩
    exact hfollows _ _ (follows_assoc (hword _ _ (hgap _ _ ht)))
  · refine ⟨none, c, h, le_rfl, fun t new ht => ?_⟩
    have hnil : new ++ caughtBy slot' none = new := List.append_nil new
    rw [hnil]
    exact hfollows t new ht

def slash : Pattern :=
  Pattern.all [many isGap, symbol '/', many isGap]

theorem language_slash (h : Language slash w) : ∃ gap gap', w = gap ++ '/' :: gap' ∧
    (∀ c ∈ gap, isGap c = true) ∧ ∀ c ∈ gap', isGap c = true := by
  obtain ⟨gap, _, rfl, hgap, _, gap', rfl, ⟨c, rfl, hc⟩, hgap'⟩ := h
  rw [beq_iff_eq.mp hc]
  exact ⟨gap, gap', rfl, hgap, hgap'⟩

theorem exists_run_behind_slash (ht : ∃ c r, t = c :: r ∧ (!isGap c) = true)
    (h : run n (seq slash q) ⟨first, '/' :: t, groups⟩ (finish n) = some m) :
    ∃ first', run n q ⟨first', t, groups⟩ (finish n) = some m := by
  obtain ⟨⟨first', rest, groups'⟩, hd, hnext⟩ := exists_of_run_seq h
  obtain ⟨⟨u, hu, hlang⟩, -⟩ := went_of_mem hd
  have hgroups := (went_of_mem hd).groups_eq rfl
  obtain ⟨gap, gap', rfl, hgap, hgap'⟩ := language_slash hlang
  obtain ⟨e, r, rfl, he⟩ := ht
  cases gap with
  | cons y gap =>
    obtain ⟨rfl, -⟩ := List.cons.inj hu
    exact absurd (hgap '/' List.mem_cons_self) (by decide)
  | nil =>
    obtain ⟨-, hrest⟩ := List.cons.inj hu
    cases gap' with
    | cons y gap' =>
      obtain ⟨rfl, -⟩ := List.cons.inj hrest
      rw [hgap' e List.mem_cons_self] at he
      contradiction
    | nil =>
      change e :: r = rest at hrest
      dsimp only at hgroups
      subst hrest hgroups
      exact ⟨first', hnext⟩

theorem Replays.slash (hq : Starts (fun c => !isGap c) q) (h : Replays q t new) :
    Replays (seq slash q) ('/' :: t) new := by
  have hslash : Language FontShorthand.slash ['/'] :=
    ⟨[], ['/'], rfl, nofun, ['/'], [], rfl, ⟨'/', rfl, rfl⟩, nofun⟩
  refine ⟨h.accepted.behind hslash, fun n first groups m hn hm => ?_⟩
  obtain ⟨first', hm⟩ := exists_run_behind_slash (h.accepted.head hq) hm
  exact h.caught _ _ _ _ (le_trans (by simp) hn) hm

theorem follows_slash (hq : Starts (fun c => !isGap c) q)
    (h : run n (seq slash q) c (finish n) = some m) :
    ∃ d, run n q d (finish n) = some m ∧ d.rest.length ≤ c.rest.length ∧
      ∀ t new, Follows q d m t new → Follows (seq slash q) c m ('/' :: t) new := by
  obtain ⟨d, hd, hnext⟩ := exists_of_run_seq h
  obtain ⟨⟨w, hw, hlang⟩, -⟩ := went_of_mem hd
  have hgroups := (went_of_mem hd).groups_eq rfl
  obtain ⟨gap, gap', rfl, hgap, hgap'⟩ := language_slash hlang
  refine ⟨d, hnext, by simp [hw]; omega, fun t new hfollows => ?_⟩
  obtain ⟨⟨x, last, hx, hlast, hwiden⟩, htexts, hreplays⟩ := hfollows
  refine ⟨⟨gap ++ '/' :: (gap' ++ x), last, ?_, hlast, .slash hgap hgap' hwiden⟩, ?_,
    hreplays.slash hq⟩
  · rw [hw, hx]
    simp
  · rw [htexts, hgroups]

def height : Pattern :=
  Pattern.all [many isGap, symbol '/', many isGap, slotGroup .height]

theorem run_height {α : Type} (next : Continuation α) :
    run n (seq height q) c next = run n (seq slash (seq (slotGroup .height) q)) c next := by
  simp only [height, slash, Pattern.all, run_seq]

theorem language_height (h : Language (seq slash (seq (slotGroup .height) q)) w) :
    Language (seq height q) w := by
  obtain ⟨_, _, rfl, ⟨a, _, rfl, ha, b, y, rfl, hb, hy⟩, x, z, rfl, hx, hz⟩ := h
  exact ⟨a ++ (b ++ (y ++ x)), z, by simp, ⟨a, _, rfl, ha, b, _, rfl, hb, y, x, rfl, hy, hx⟩, hz⟩

theorem isFloating_height : height.isFloating = true :=
  isFloating_slotGroup .height

theorem loose_height : Loose height :=
  .slash (loose_slotGroup .height)

theorem starts_height : Starts isStop height := by
  rintro _ ⟨gap, _, rfl, hgap, _, t, rfl, ⟨c, rfl, hc⟩, -⟩
  obtain rfl := beq_iff_eq.mp hc
  cases gap with
  | nil => exact ⟨'/', t, rfl, by decide⟩
  | cons c gap => exact ⟨c, _, rfl, isStop_of_isGap (hgap c List.mem_cons_self)⟩

def slashed : Option (List Char) → List Char
  | some w => '/' :: w
  | none => []

theorem follows_height (hfloating : q.isFloating = true) (hloose : Loose q) (hq : Starts isStop q)
    (hn : c.rest.length ≤ n) (h : run n (seq (optional height) q) c (finish n) = some m) :
    ∃ o d, run n q d (finish n) = some m ∧ ∀ t new, Follows q d m t new →
      Follows (seq (optional height) q) c m (slashed o ++ t) (new ++ caughtBy .height o) := by
  have hall : (seq height q).isFloating = true :=
    Bool.and_eq_true_iff.mpr ⟨isFloating_height, hfloating⟩
  obtain ⟨h, hfollows⟩ | ⟨h, hfollows⟩ := follows_optional hall (loose_height.seq hloose) hn h
  · rw [run_height] at h
    obtain ⟨d, h, -, hslash⟩ := follows_slash ((starts_slotGroup .height).seq q) h
    have hslot : FontSlot.height ≠ .family := by decide
    obtain ⟨w, e, h, -, hword⟩ := follows_word hslot hq h
    refine ⟨some w, e, h, fun t new ht => hfollows _ _ ?_⟩
    exact (hslash _ _ (hword _ _ ht)).congr (fun _ => language_height) fun _ _ _ => run_height _
  · refine ⟨none, c, h, fun t new ht => ?_⟩
    have hnil : new ++ caughtBy .height none = new := List.append_nil new
    rw [hnil]
    exact hfollows t new ht

/-- The texts of the slots, either of a font with a size and a family or of a system font. -/
inductive Filling where
  | sized (style variant weight : Option (List Char)) (size : List Char)
      (height : Option (List Char)) (family : List Char)
  | system (name : List Char)

namespace Filling

def text : Filling → List Char
  | sized style variant weight size height family =>
    lead style (lead variant (lead weight (size ++ (slashed height ++ ' ' :: family))))
  | system name => name

def get? : Filling → FontSlot → Option (List Char)
  | sized style _ _ _ _ _, .style => style
  | sized _ variant _ _ _ _, .variant => variant
  | sized _ _ weight _ _ _, .weight => weight
  | sized _ _ _ size _ _, .size => some size
  | sized _ _ _ _ height _, .height => height
  | sized _ _ _ _ _ family, .family => some family
  | system name, .system => some name
  | _, _ => none

def caught (f : Filling) : List (Nat × List Char) :=
  FontSlot.all.reverse.flatMap fun s => caughtBy s (f.get? s)

end Filling

def behindSize : Pattern :=
  seq (optional height) (seq (many1 isGap) (slotGroup .family))

def behindWeight : Pattern :=
  seq (slotGroup .size) behindSize

def sizedFont : Pattern :=
  seq (leading .style) (seq (leading .variant) (seq (leading .weight) behindWeight))

theorem isFloating_behindSize : behindSize.isFloating = true :=
  Bool.and_eq_true_iff.mpr ⟨(isFloating_optional _).trans isFloating_height,
    isFloating_gap_seq (isFloating_slotGroup .family)⟩

theorem loose_behindSize : Loose behindSize :=
  loose_height.optional.seq (Loose.gaps1.seq (loose_slotGroup .family))

theorem starts_behindSize : Starts isStop behindSize :=
  starts_height.optional_seq (starts_gap _)

theorem regular_behindWeight : Regular behindWeight :=
  .slotGroup_seq .size isFloating_behindSize loose_behindSize

theorem regular_sizedFont : Regular sizedFont :=
  ((regular_behindWeight.leading_seq .weight).leading_seq .variant).leading_seq .style

theorem follows_behindSize (hn : c.rest.length ≤ n)
    (h : run n behindSize c (finish n) = some m) :
    ∃ height family, Follows behindSize c m (slashed height ++ ' ' :: family)
      ((FontSlot.family.group, family) :: caughtBy .height height) := by
  obtain ⟨height, d, h, hheight⟩ := follows_height (isFloating_gap_seq (isFloating_slotGroup .family))
    (Loose.gaps1.seq (loose_slotGroup .family)) (starts_gap _) hn h
  obtain ⟨e, h, -, hgap⟩ := follows_gap (starts_slotGroup .family) h
  obtain ⟨family, hfamily⟩ := follows_last h
  exact ⟨height, family, hheight _ _ (hgap _ _ hfamily)⟩

theorem follows_sizedFont (hn : c.rest.length ≤ n) (h : run n sizedFont c (finish n) = some m) :
    ∃ style variant weight size height family,
      let f := Filling.sized style variant weight size height family
      Follows sizedFont c m f.text f.caught := by
  have hweight := regular_behindWeight.leading_seq .weight
  obtain ⟨style, c₁, h, hlength, hstyle⟩ :=
    follows_leading (by decide) (hweight.leading_seq .variant) hn h
  replace hn := hlength.trans hn
  obtain ⟨variant, c₂, h, hlength, hvariant⟩ := follows_leading (by decide) hweight hn h
  replace hn := hlength.trans hn
  obtain ⟨weight, c₃, h, hlength, hweight⟩ :=
    follows_leading (by decide) regular_behindWeight hn h
  replace hn := hlength.trans hn
  obtain ⟨size, c₄, h, hlength, hsize⟩ := follows_word (by decide) starts_behindSize h
  replace hn := hlength.trans hn
  obtain ⟨height, family, hrest⟩ := follows_behindSize hn h
  have hall := hstyle _ _ (hvariant _ _ (hweight _ _ (hsize _ _ hrest)))
  refine ⟨style, variant, weight, size, height, family, ?_⟩
  simpa [sizedFont, Filling.text, Filling.caught, FontSlot.all, Filling.get?, caughtBy] using hall

end StyleFold.FontShorthand
