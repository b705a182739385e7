import StyleFold.Proofs.Shorthand.Font.Collapsed

/-!
Which fonts are matched in the way that they were made up. The slots in front of the size are told
apart by their order alone. So one of them that is not set must not take the word behind it, which is
the value of another slot.
-/
namespace StyleFold.FontShorthand
open Declaration Text Pattern

variable {n : Nat} {q : Pattern} {m : Cursor} {t w size family : List Char} {s : FontSlot}
  {slots : List FontSlot} {first : Bool} {groups : List (Nat × List Char × List Char)}
  {values : FontSlot → Option (List Char)}

def sizedBehind : List FontSlot → Pattern
  | [] => behindWeight
  | s :: slots => seq (leading s) (sizedBehind slots)

def leadingSlots : List FontSlot :=
  [.style, .variant, .weight]

/-- The slot takes the word behind it if that is one of its own words. If that is the size, a gap and
the rest of a font have to follow. -/
def takesNext (values : FontSlot → Option (List Char)) (s : FontSlot) (slots : List FontSlot) :
    Bool :=
  match slots.findSome? values with
  | some w => (slot s).fits w
  | none => (values .height).isNone && (values .size).any (slot s).fits &&
      (values .family).any (sizedBehind slots).fits

/-- No slot that is not set takes the word behind it. -/
def isClear (values : FontSlot → Option (List Char)) : List FontSlot → Bool
  | [] => true
  | s :: slots => ((values s).isSome || !takesNext values s slots) && isClear values slots

structure Sized (values : FontSlot → Option (List Char)) (size family : List Char) : Prop where
  size : values .size = some size
  family : values .family = some family
  language : ∀ s, ∀ w ∈ values s, Language (slot s) w
  plain : ∀ s, ∀ w ∈ values s, w ≠ initial.toList

def textBehind (values : FontSlot → Option (List Char)) (size family : List Char) :
    List FontSlot → List Char
  | [] => size ++ (slashed (values .height) ++ ' ' :: family)
  | s :: slots => lead (values s) (textBehind values size family slots)

def caughtBehind (values : FontSlot → Option (List Char)) (size family : List Char) :
    List FontSlot → List (Nat × List Char)
  | [] => (FontSlot.family.group, family) :: caughtBy .height (values .height) ++
      [(FontSlot.size.group, size)]
  | s :: slots => caughtBehind values size family slots ++ caughtBy s (values s)

theorem regular_sizedBehind (slots : List FontSlot) : Regular (sizedBehind slots) := by
  induction slots with
  | nil => exact regular_behindWeight
  | cons s slots ih => exact ih.leading_seq s

theorem map_fst_subgroups (slots : List FontSlot) : (subgroups (sizedBehind slots)).map Prod.fst =
    (slots ++ [FontSlot.size, .height, .family]).map FontSlot.group := by
  induction slots with
  | nil =>
    simp [sizedBehind, behindWeight, behindSize, height, slotGroup, Pattern.all, subgroups, many1, many,
      symbol, Pattern.optional]
  | cons s slots ih =>
    simp [sizedBehind, leading, slotGroup, subgroups, many1, many, Pattern.optional, ih]

theorem group_injective : Function.Injective FontSlot.group := by
  intro s t
  cases s <;> cases t <;> simp [FontSlot.group]

theorem starts_of_solid {p : Pattern} (hsolid : Solid p) (hfilled : Filled p) :
    Starts (fun c => !isStop c) p := by
  intro w hw
  obtain ⟨c, r, rfl⟩ := List.exists_cons_of_ne_nil (hfilled w hw)
  exact ⟨c, r, rfl, hsolid _ hw c List.mem_cons_self⟩

theorem starts_family : Starts (fun c => !isStop c) (slot .family) := by
  have hquoted {mark : Char} (h : (!isStop mark) = true) :
      Starts (fun c => !isStop c) (quotedName mark) :=
    (Starts.char fun c hc => by rwa [beq_iff_eq.mp hc]).seq _
  have hname : Starts (fun c => !isStop c) nameWord :=
    starts_of_solid solid_nameWord (Filled.char.seq_left _)
  have hglobal : Starts (fun c => !isStop c) global :=
    starts_of_solid solid_global fun w hw => (isTame_global w hw).filled
  exact hglobal.alt (Starts.seq (.alt (hquoted (by decide)) (.alt (hquoted (by decide))
    (hname.seq _))) _)

theorem not_accepts_height (hfamily : Language (slot .family) family) (q : Pattern) :
    ¬Accepts (seq height q) (' ' :: family) := by
  rintro ⟨_, gap, htext, ⟨_, _, rfl, ⟨gap', _, rfl, hgap', _, v, rfl, ⟨x, rfl, hx⟩, -⟩, -⟩, -⟩
  obtain rfl := beq_iff_eq.mp hx
  obtain ⟨c, r, rfl, hc⟩ := starts_family family hfamily
  rcases gap' with _ | ⟨y, _ | ⟨z, gap'⟩⟩
  · obtain ⟨h, -⟩ := List.cons.inj htext
    exact absurd h (by decide)
  · obtain ⟨-, h⟩ := List.cons.inj htext
    obtain ⟨rfl, -⟩ := List.cons.inj h
    exact absurd hc (by decide)
  · obtain ⟨-, h⟩ := List.cons.inj htext
    obtain ⟨rfl, -⟩ := List.cons.inj h
    have hstop := isStop_of_isGap (hgap' c (by simp))
    simp [hstop] at hc

theorem replays_behindWeight (h : Sized values size family) : Replays behindWeight
    (textBehind values size family []) (caughtBehind values size family []) := by
  have hfamily : Language (slot .family) family := h.language .family family h.family
  have hspace := (replays_last hfamily).space (starts_slotGroup .family)
  have hheight : Replays behindSize (slashed (values .height) ++ ' ' :: family)
      ((FontSlot.family.group, family) :: caughtBy .height (values .height)) := by
    refine Replays.congr ?_ (fun _ => language_optional) fun _ _ _ => run_optional ..
    cases hvalue : values .height with
    | none => exact hspace.alt_right (not_accepts_height hfamily _)
    | some w =>
      have hfloating := Bool.and_eq_true_iff.mpr ⟨isFloating_height,
        isFloating_gap_seq (isFloating_slotGroup .family)⟩
      have hword := hspace.word (by decide) (starts_gap _) (h.language .height w hvalue)
      have hslash := hword.slash ((starts_slotGroup .height).seq _)
      exact (hslash.congr (fun _ => language_height) fun _ _ _ => run_height _).alt_left hfloating
  exact hheight.word (by decide) starts_behindSize (h.language .size size h.size)

def taking (s : FontSlot) (q : Pattern) : Pattern :=
  seq (seq (slotGroup s) (many1 isGap)) q

theorem isFloating_taking (s : FontSlot) (hq : Regular q) : (taking s q).isFloating = true :=
  (hq.before_gap_seq s).floating

theorem run_leading (n : Nat) (s : FontSlot) (q : Pattern) (c : Cursor)
    (next : Continuation Cursor) : run n (seq (leading s) q) c next = run n (alt (taking s q) q) c next :=
  rfl

theorem accepts_leading_of_taking (h : Accepts (taking s q) t) : Accepts (seq (leading s) q) t :=
  h.alt_left.mono fun _ => language_optional

theorem accepts_leading (h : Accepts q t) : Accepts (seq (leading s) q) t :=
  h.alt_right.mono fun _ => language_optional

theorem accepts_taking (hw : Language (slot s) w) (h : Accepts q t) :
    Accepts (taking s q) (w ++ ' ' :: t) := by
  have hspace : Accepts (seq (many1 isGap) q) (' ' :: t) := h.behind language_space
  have hword : Accepts (seq (slotGroup s) (seq (many1 isGap) q)) (w ++ ' ' :: t) := hspace.behind hw
  exact hword.mono fun _ => language_assoc

theorem exists_run_taking (hs : s ≠ .family) (hw : ∀ c ∈ w, isStop c = false)
    (ht : ∃ c r, t = c :: r ∧ (!isGap c) = true)
    (h : run n (taking s q) ⟨first, w ++ ' ' :: t, groups⟩ (finish n) = some m) :
    Language (slot s) w ∧ ∃ first',
      run n q ⟨first', t, (s.group, w ++ ' ' :: t, ' ' :: t) :: groups⟩ (finish n) = some m := by
  have hrun : run n (seq (slotGroup s) (seq (many1 isGap) q)) ⟨first, w ++ ' ' :: t, groups⟩
      (finish n) = some m := h
  obtain ⟨hlang, first', h⟩ :=
    exists_run_behind_word hs (starts_gap q) hw ⟨' ', t, rfl, by decide⟩ hrun
  exact ⟨hlang, exists_run_behind_space ht h⟩

theorem accepts_taking_iff (hs : s ≠ .family) (hw : ∀ c ∈ w, isStop c = false)
    (ht : ∃ c r, t = c :: r ∧ (!isGap c) = true) (hq : Regular q) :
    Accepts (taking s q) (w ++ ' ' :: t) ↔ Language (slot s) w ∧ Accepts q t := by
  refine ⟨fun h => ?_, fun ⟨hlang, h⟩ => accepts_taking hlang h⟩
  obtain ⟨m, hm⟩ := @exists_run_of_accepts _ _ _ true [] (isFloating_taking s hq) h le_rfl
  obtain ⟨hlang, first', hrun⟩ := exists_run_taking hs hw ht hm
  exact ⟨hlang, accepts_of_run hrun⟩

/-- In front of a slash there is no gap that could set the word apart. -/
theorem not_accepts_taking_slash (hs : s ≠ .family) (hw : ∀ c ∈ w, isStop c = false)
    (hq : Regular q) (t : List Char) : ¬Accepts (taking s q) (w ++ '/' :: t) := by
  intro h
  obtain ⟨m, hm⟩ := @exists_run_of_accepts _ _ _ true [] (isFloating_taking s hq) h le_rfl
  have hrun : run _ (seq (slotGroup s) (seq (many1 isGap) q)) ⟨true, w ++ '/' :: t, []⟩
      (finish _) = some m := hm
  obtain ⟨-, first', hgap⟩ :=
    exists_run_behind_word hs (starts_gap q) hw ⟨'/', t, rfl, by decide⟩ hrun
  have hstarts : Starts isGap (seq (many1 isGap) q) := (Starts.many1 fun _ => id).seq q
  obtain ⟨c, r, hc, hgap⟩ := (accepts_of_run hgap).head hstarts
  obtain ⟨rfl, -⟩ := List.cons.inj hc
  exact absurd hgap (by decide)

theorem Sized.not_isStop (h : Sized values size family) (hs : s ≠ .family) (hw : values s = some w) :
    ∀ c ∈ w, isStop c = false :=
  (solid_slot hs).not_isStop (h.language s w hw)

theorem accepts_textBehind (h : Sized values size family) (slots : List FontSlot) :
    Accepts (sizedBehind slots) (textBehind values size family slots) := by
  induction slots with
  | nil => exact (replays_behindWeight h).accepted
  | cons s slots ih =>
    rw [textBehind]
    cases hs : values s with
    | none => exact accepts_leading ih
    | some w => exact accepts_leading_of_taking (accepts_taking (h.language s w hs) ih)

theorem textBehind_of_none (h : slots.findSome? values = none) :
    textBehind values size family slots = textBehind values size family [] := by
  induction slots with
  | nil => rfl
  | cons s slots ih =>
    obtain ⟨hs, hslots⟩ := List.forall_mem_cons.mp (List.findSome?_eq_none_iff.mp h)
    rw [← ih (List.findSome?_eq_none_iff.mpr hslots), textBehind, hs]
    rfl

/-- The font begins with the value of the first slot that is set, and what is behind it is a font with
any of the slots. -/
theorem exists_textBehind (h : Sized values size family) (hw : slots.findSome? values = some w) :
    ∃ s ∈ slots, values s = some w ∧ ∃ t, textBehind values size family slots = w ++ ' ' :: t ∧
      Accepts (sizedBehind slots) t := by
  induction slots with
  | nil => contradiction
  | cons s slots ih =>
    rw [List.findSome?_cons] at hw
    rw [textBehind, sizedBehind]
    cases hs : values s with
    | none =>
      rw [hs] at hw
      obtain ⟨s', hs', hvalue, t, htext, haccepts⟩ := ih hw
      exact ⟨s', List.mem_cons_of_mem s hs', hvalue, t, htext, accepts_leading haccepts⟩
    | some v =>
      rw [hs] at hw
      obtain rfl := Option.some.inj hw
      exact ⟨s, List.mem_cons_self, hs, _, rfl, accepts_leading (accepts_textBehind h slots)⟩

theorem exists_first_word (h : Sized values size family) (hslots : ∀ s ∈ slots, s ≠ .family) :
    ∃ s w t, s ≠ .family ∧ values s = some w ∧ textBehind values size family slots = w ++ t ∧
      ∃ c r, t = c :: r ∧ isStop c = true := by
  cases hw : slots.findSome? values with
  | some w =>
    obtain ⟨s, hs, hvalue, t, htext, -⟩ := exists_textBehind h hw
    exact ⟨s, w, ' ' :: t, hslots s hs, hvalue, htext, ' ', t, rfl, by decide⟩
  | none =>
    refine ⟨.size, size, _, by decide, h.size, textBehind_of_none hw, ?_⟩
    cases values .height with
    | none => exact ⟨' ', family, rfl, by decide⟩
    | some w => exact ⟨'/', w ++ ' ' :: family, rfl, by decide⟩

theorem accepts_iff_language (hw : Footed w) : Accepts q w ↔ Language q w := by
  refine ⟨?_, fun h => ⟨w, [], (List.append_nil w).symm, h, List.forall_mem_nil _⟩⟩
  rintro ⟨v, gap, rfl, hlang, hgap⟩
  rwa [hw.eq_append hgap, List.append_nil]

theorem accepts_taking_iff_takesNext (h : Sized values size family) (hs : s ≠ .family)
    (hslots : ∀ s ∈ slots, s ≠ .family) :
    Accepts (taking s (sizedBehind slots)) (textBehind values size family slots) ↔
      takesNext values s slots = true := by
  have hregular := regular_sizedBehind slots
  rw [takesNext]
  cases hw : slots.findSome? values with
  | some w =>
    obtain ⟨s', hs', hvalue, t, htext, haccepts⟩ := exists_textBehind h hw
    dsimp only
    rw [htext, accepts_taking_iff hs (h.not_isStop (hslots s' hs') hvalue)
      (haccepts.head hregular.starts) hregular, fits_iff (isFloating_slot s)]
    exact and_iff_left haccepts
  | none =>
    have hsize : ∀ c ∈ size, isStop c = false := h.not_isStop (s := .size) (by decide) h.size
    have hfamily : Language (slot .family) family := h.language .family family h.family
    rw [textBehind_of_none hw, textBehind]
    cases hheight : values .height with
    | some w =>
      exact iff_of_false (not_accepts_taking_slash hs hsize hregular _) (by simp)
    | none =>
      have haccepts := accepts_taking_iff (t := family) hs hsize (starts_slot .family family hfamily)
        hregular
      have hfits := fits_iff (w := family) hregular.floating
      rw [slashed, List.nil_append, haccepts, accepts_iff_language (footed_slot hfamily), h.size,
        h.family, ← hfits, ← fits_iff (isFloating_slot s)]
      simp

theorem group?_of_run {index : Nat} (hindex : index ∉ (subgroups q).map Prod.fst)
    (h : run n q ⟨first, t, (index, w ++ t, t) :: groups⟩ (finish n) = some m) :
    m.group? index = some w := by
  obtain ⟨d, hd, hnext⟩ := exists_of_run h
  obtain ⟨-, new, hnew, hgroups⟩ := went_of_mem hd
  have hnone : new.find? (fun g => g.1 == index) = none := by
    refine List.find?_eq_none.mpr fun g hg hg' => hindex ?_
    obtain ⟨p, hp, -⟩ := hgroups g hg
    exact List.mem_map.mpr ⟨_, hp, beq_iff_eq.mp hg'⟩
  rw [Cursor.group?, (finish_eq_some hnext).2, hnew, List.find?_append, hnone]
  simp [between_append]

/-- A slot that takes the word behind it catches the value of another slot. -/
theorem exists_taken (h : Sized values size family) (hfamily : ∀ s ∈ slots, s ≠ .family)
    (hs : s ∉ slots ++ [.size, .height, .family])
    (hm : run n (taking s (sizedBehind slots)) ⟨first, textBehind values size family slots, groups⟩
      (finish n) = some m) : ∃ w, m.group? s.group = some w ∧ w ≠ initial.toList := by
  obtain ⟨s', w, t, hs', hw, htext, ht⟩ := exists_first_word h hfamily
  have hrun : run n (seq (slotGroup s) (seq (many1 isGap) (sizedBehind slots)))
      ⟨first, w ++ t, groups⟩ (finish n) = some m := htext ▸ hm
  have hne : s ≠ .family := by
    rintro rfl
    simp at hs
  obtain ⟨-, first', hm⟩ :=
    exists_run_behind_word hne (starts_gap _) (h.not_isStop hs' hw) ht hrun
  have hgroups : (subgroups (seq (many1 isGap) (sizedBehind slots))).map Prod.fst =
      (slots ++ [FontSlot.size, .height, .family]).map FontSlot.group := map_fst_subgroups slots
  refine ⟨w, group?_of_run ?_ hm, h.plain s' w hw⟩
  rw [hgroups, List.mem_map_of_injective group_injective]
  exact hs

/-- What a match of a font from some of the slots on holds: the values, where the font is clear, and in
any other a word in a slot that was not set. -/
structure Matched (values : FontSlot → Option (List Char)) (size family : List Char)
    (slots : List FontSlot) (groups : List (Nat × List Char × List Char)) (m : Cursor) : Prop where
  caught : isClear values slots = true →
    texts m.groups = caughtBehind values size family slots ++ texts groups
  taken : isClear values slots = false → ∃ s ∈ slots, values s = none ∧
    ∃ w, m.group? s.group = some w ∧ w ≠ initial.toList

namespace Matched

theorem taken_cons (h : Matched values size family slots groups m)
    (hclear : isClear values slots = false) : ∃ s' ∈ s :: slots, values s' = none ∧
      ∃ w, m.group? s'.group = some w ∧ w ≠ initial.toList := by
  obtain ⟨s', hs', hp⟩ := h.taken hclear
  exact ⟨s', List.mem_cons_of_mem s hs', hp⟩

theorem of_some (hvalue : values s = some w)
    (h : Matched values size family slots ((s.group, w ++ t, t) :: groups) m) :
    Matched values size family (s :: slots) groups m := by
  have hclear : isClear values (s :: slots) = isClear values slots := by simp [isClear, hvalue]
  refine ⟨fun hc => ?_, fun hc => taken_cons h (hclear ▸ hc)⟩
  rw [h.caught (hclear ▸ hc), texts_cons, caughtBehind, hvalue, List.append_assoc]
  rfl

theorem of_none (hvalue : values s = none) (hnot : takesNext values s slots = false)
    (h : Matched values size family slots groups m) :
    Matched values size family (s :: slots) groups m := by
  have hclear : isClear values (s :: slots) = isClear values slots := by simp [isClear, hnot]
  refine ⟨fun hc => ?_, fun hc => taken_cons h (hclear ▸ hc)⟩
  rw [h.caught (hclear ▸ hc), caughtBehind, hvalue]
  simp [caughtBy]

theorem of_taken (hvalue : values s = none) (htakes : takesNext values s slots = true)
    (hw : ∃ w, m.group? s.group = some w ∧ w ≠ initial.toList) :
    Matched values size family (s :: slots) groups m := by
  have hclear : isClear values (s :: slots) = false := by simp [isClear, hvalue, htakes]
  exact ⟨fun hc => absurd (hclear ▸ hc) (by simp), fun _ => ⟨s, List.mem_cons_self, hvalue, hw⟩⟩

end Matched

/-- A font that is clear is matched as it was made up. In any other a slot that was not set catches
the value of another. -/
theorem matched_of_run (h : Sized values size family)
    (hslots : (slots ++ [FontSlot.size, .height, .family]).Nodup)
    (hn : (textBehind values size family slots).length ≤ n)
    (hm : run n (sizedBehind slots) ⟨first, textBehind values size family slots, groups⟩ (finish n) =
      some m) : Matched values size family slots groups m := by
  induction slots generalizing first groups with
  | nil => exact ⟨fun _ => (replays_behindWeight h).caught n first groups m hn hm, by simp [isClear]⟩
  | cons s slots ih =>
    obtain ⟨hnot, hrest⟩ := List.nodup_cons.mp hslots
    have hs : s ≠ .family := by
      rintro rfl
      simp at hnot
    have hfamily : ∀ s ∈ slots, s ≠ .family := by
      rintro s hs rfl
      exact (List.nodup_append.mp hrest).2.2 _ hs .family (by simp) rfl
    have hregular := regular_sizedBehind slots
    rw [sizedBehind, run_leading] at hm
    rw [textBehind] at hn hm
    cases hvalue : values s with
    | some w =>
      -- The slot takes its own value, and the rest is matched behind it.
      have haccepts := accepts_textBehind h slots
      have htaking := accepts_taking (h.language s w hvalue) haccepts
      rw [hvalue, lead] at hm hn
      rw [run_alt_left (isFloating_taking s hregular) htaking hn] at hm
      obtain ⟨-, first', hm⟩ := exists_run_taking hs (h.not_isStop hs hvalue)
        (haccepts.head hregular.starts) hm
      exact .of_some hvalue (ih hrest (le_trans (by simp; omega) hn) hm)
    | none =>
      rw [hvalue, lead] at hm hn
      have htakes := accepts_taking_iff_takesNext h hs hfamily
      by_cases htaking : Accepts (taking s (sizedBehind slots)) (textBehind values size family slots)
      · rw [run_alt_left (isFloating_taking s hregular) htaking hn] at hm
        exact .of_taken hvalue (htakes.mp htaking) (exists_taken h hfamily hnot hm)
      · rw [run_alt_right htaking] at hm
        exact .of_none hvalue (eq_false_of_ne_true (mt htakes.mpr htaking)) (ih hrest hn hm)

end StyleFold.FontShorthand
