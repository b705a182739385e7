import StyleFold.Proofs.Shorthand.Background.Calls
import StyleFold.Proofs.Text.Words

/-!
The other texts in which parts of a background are looked up: the value without its function calls
and the value without its image. Both are made up of the same pieces as the value, with a space for
every piece that is taken out.
-/
namespace StyleFold.BackgroundShorthand
open Text Pattern

variable {n : Nat} {k : Part} {c : Char} {s t u v w x gap name arguments picture : List Char}
  {first : Bool} {texts texts' ms : List (List Char)}

/-- A text without stops does not reach across stops. -/
theorem infix_of_stops (hu : ∀ c ∈ u, isStop c = false) (hne : u ≠ [])
    (hgap : ∀ c ∈ gap, isStop c = true) (hnegap : gap ≠ [])
    (h : u <:+: lower (w ++ (gap ++ s))) : u <:+: lower w ∨ u <:+: lower s := by
  induction gap generalizing w with
  | nil => exact absurd rfl hnegap
  | cons c gap ih =>
    obtain ⟨hc, hgap⟩ := List.forall_mem_cons.mp hgap
    have hlower : c.toLower ∉ u := by
      intro hm
      have hstops : stops.all (fun c => isStop c.toLower) = true := by decide
      have hstop := List.all_eq_true.mp hstops c (mem_stops.mp hc)
      rw [hu _ hm] at hstop
      contradiction
    rw [lower_append] at h
    obtain h | h := infix_append_cons hlower h
    · exact .inl h
    · by_cases hnil : gap = []
      · rw [hnil] at h
        exact .inr h
      · obtain h | h := ih (w := []) hgap hnil h
        · exact absurd (List.infix_nil.mp h) hne
        · exact .inr h

namespace Joined

/-- A piece with the text before it and the text behind it, which can stand without each other and
around any other piece. -/
theorem split (h : Joined (texts ++ w :: texts') s) :
    ∃ before after, s = before ++ (w ++ after) ∧ ∀ x, Joined (texts ++ [x]) (before ++ x) ∧
      Joined (x :: texts') (x ++ after) ∧
      Joined (texts ++ x :: texts') (before ++ (x ++ after)) := by
  induction texts generalizing s with
  | nil =>
    cases h with
    | single w => exact ⟨[], [], by simp, fun x => by simp [Joined.single]⟩
    | @cons _ gap s _ hgap hne hws h =>
      exact ⟨[], gap ++ s, rfl, fun x => ⟨.single x, .cons hgap hne hws h, .cons hgap hne hws h⟩⟩
  | cons v texts ih =>
    rw [List.cons_append] at h
    generalize htexts : texts ++ w :: texts' = rest at h
    cases h with
    | single => simp at htexts
    | @cons _ gap s _ hgap hne hws h =>
      rw [← htexts] at h
      obtain ⟨before, after, rfl, hall⟩ := ih h
      refine ⟨v ++ (gap ++ before), after, by simp, fun x => ⟨?_, (hall x).2.1, ?_⟩⟩
      · simpa using Joined.cons hgap hne (by simp) (hall x).1
      · simpa using Joined.cons hgap hne (by simp) (hall x).2.2

theorem append (h : Joined texts s) (h' : Joined texts' t) (hne : texts ≠ []) (hne' : texts' ≠ [])
    (hgap : ∀ c ∈ gap, isGap c = true) (hnegap : gap ≠ []) :
    Joined (texts ++ texts') (s ++ (gap ++ t)) := by
  induction h with
  | nil => exact absurd rfl hne
  | single w => exact .cons hgap hnegap hne' h'
  | @cons w gap' s texts hgap' hnegap' hws h ih =>
    have hrest := Joined.cons (w := w) hgap' hnegap' (by simp [hws]) (ih hws)
    simpa using hrest

theorem eq_of_single (h : Joined [w] s) : s = w := by
  cases h with
  | single => rfl
  | cons _ _ hws => exact absurd rfl hws

theorem exists_of_mem (h : Joined texts s) (hc : c ∈ s) :
    isGap c = true ∨ ∃ w ∈ texts, c ∈ w := by
  induction h with
  | nil => contradiction
  | single w => exact .inr ⟨w, List.mem_cons_self, hc⟩
  | @cons w gap s texts hgap hne hws h ih =>
    obtain hc | hc := List.mem_append.mp hc
    · exact .inr ⟨w, List.mem_cons_self, hc⟩
    · obtain hc | hc := List.mem_append.mp hc
      · exact .inl (hgap c hc)
      · exact (ih hc).imp_right fun ⟨w, hw, hc⟩ => ⟨w, List.mem_cons_of_mem _ hw, hc⟩

theorem ne_nil (h : Joined texts s) (hne : texts ≠ []) (hws : ∀ w ∈ texts, w ≠ []) : s ≠ [] := by
  cases h with
  | nil => exact absurd rfl hne
  | single w => exact hws _ List.mem_cons_self
  | cons => simp [hws _ List.mem_cons_self]

theorem exists_holding (h : Joined texts s) (hu : ∀ c ∈ u, isStop c = false) (hne : u ≠ [])
    (hfound : u <:+: lower s) : ∃ w ∈ texts, u <:+: lower w := by
  induction h with
  | nil => exact absurd (List.infix_nil.mp hfound) hne
  | single w => exact ⟨w, List.mem_cons_self, hfound⟩
  | @cons w gap s texts hgap hnegap hws h ih =>
    obtain h | h := infix_of_stops hu hne (fun c hc => isStop_of_isGap (hgap c hc)) hnegap hfound
    · exact ⟨w, List.mem_cons_self, h⟩
    · obtain ⟨v, hv, hfound⟩ := ih h
      exact ⟨v, List.mem_cons_of_mem w hv, hfound⟩

end Joined

def maskedFrom (n : Nat) (first : Bool) (s : List Char) : List Char :=
  (piecesFrom n functionCall 0 first s).flatMap (Piece.replaced [' '])

theorem masked_eq (s : List Char) : masked s = maskedFrom s.length true s :=
  rfl

theorem beginsCall_functionCall (h : Language functionCall v) : BeginsCall v := by
  obtain ⟨a, b, rfl, ha, hb⟩ := h
  exact beginsCall_append (.many1 fun _ => id) (starts_opening _) ha hb

theorem maskedFrom_plain (hne : w ≠ [])
    (h : ∀ u v, w = u ++ v → v ≠ [] → ¬BeginsCall (v ++ t)) :
    maskedFrom n first (w ++ t) = w ++ maskedFrom n false t := by
  have hplain : piecesFrom n functionCall 0 first (w ++ t) =
      w.map Piece.plain ++ piecesFrom n functionCall 0 (first && w.isEmpty) t := by
    refine piecesFrom_plain fun u v huv hv first => ?_
    rw [match?_eq_head?, outcomes_of_refuses
      (refuses_of_not_beginsCall (fun _ => beginsCall_functionCall) (h u v huv hv)), List.head?_nil]
  have hempty : w.isEmpty = false := by simp [hne]
  rw [maskedFrom, hplain, List.flatMap_append, hempty, Bool.and_false, maskedFrom]
  simp [List.flatMap_map, Piece.replaced]

theorem maskedFrom_gap (hgap : ∀ c ∈ gap, isGap c = true) (hne : gap ≠ []) (t : List Char) :
    maskedFrom n first (gap ++ t) = gap ++ maskedFrom n false t := by
  refine maskedFrom_plain hne fun u v huv hv => ?_
  have hstop := stop_of_gap (fun c hc => hgap c (by simp [huv, hc])) hv t
  exact not_beginsCall (w := []) (by simp) hstop

/-- In front of every stop the text is `m` without its function calls. -/
def Masks (s m : List Char) : Prop :=
  ∀ n first t, Stop t → (s ++ t).length ≤ n →
    maskedFrom n first (s ++ t) = m ++ maskedFrom n false t

theorem Masks.plain (hopen : '(' ∉ s) (hne : s ≠ []) : Masks s s := by
  intro n first t ht _
  refine maskedFrom_plain hne fun u v huv _ => not_beginsCall_of_stop (fun hm => hopen ?_) ht
  rw [huv]
  exact List.mem_append_right u hm

theorem Masks.call (h : Shallow arguments) (hw : IsCall k arguments w) : Masks w [' '] := by
  obtain ⟨name, hname, rfl⟩ := hw
  obtain ⟨hne, hcalls⟩ := isCallChar_of_functions hname
  intro n first t _ hn
  have hmatch := takes_functionCall hne hcalls h t n first [] hn
  rw [← match?_eq_head?] at hmatch
  rw [maskedFrom, piecesFrom_found hmatch rfl (by simp), List.flatMap_cons]
  rfl

theorem Masks.joined (h : List.Forall₂ Masks texts ms) (hs : Joined texts s) (hne : texts ≠ []) :
    ∃ m, Joined ms m ∧ Masks s m := by
  induction hs generalizing ms with
  | nil => exact absurd rfl hne
  | single w =>
    cases h with
    | cons hw hnil =>
      cases hnil
      exact ⟨_, .single _, hw⟩
  | @cons w gap s texts hgap hnegap htexts hs ih =>
    cases h with
    | @cons _ v _ ms hw hms =>
      obtain ⟨m, hm, hmasks⟩ := ih hms htexts
      have hfilled : ms ≠ [] := by
        rintro rfl
        cases hms
        exact htexts rfl
      refine ⟨_, .cons hgap hnegap hfilled hm, fun n first t ht hn => ?_⟩
      rw [List.append_assoc, List.append_assoc] at hn ⊢
      rw [hw n first _ (stop_of_gap hgap hnegap _) hn, maskedFrom_gap hgap hnegap,
        hmasks n false t ht (le_trans (by simp; omega) hn)]
      simp

/-- What stands for a piece in the text without function calls. -/
def veil (s : List Char) : List Char :=
  if '(' ∈ s then [' '] else s

/-- The text does not contain the image, not even where it reaches beyond the end. -/
def Misses (picture s : List Char) : Prop :=
  ∀ t, Stop t → ∀ u v, s = u ++ v → v ≠ [] → ¬picture <+: v ++ t

theorem Joined.replaceFirst (hfirst : ∃ c r, picture = c :: r ∧ isGap c = false)
    (h : Joined (texts ++ picture :: texts') s) (hmiss : ∀ w ∈ texts, Misses picture w) :
    Joined (texts ++ x :: texts') (Text.replaceFirst picture x s) := by
  have hne : picture ≠ [] := by
    obtain ⟨c, r, rfl, -⟩ := hfirst
    exact List.cons_ne_nil c r
  have hself := replaceFirst_self hne x
  induction texts generalizing s with
  | nil =>
    cases h with
    | single w =>
      have := hself []
      rw [List.append_nil, List.append_nil] at this
      rw [this]
      exact .single x
    | cons hgap hne hws h =>
      rw [hself]
      exact .cons hgap hne hws h
  | cons v texts ih =>
    obtain ⟨hv, htexts⟩ := List.forall_mem_cons.mp hmiss
    rw [List.cons_append] at h
    generalize hrest : texts ++ picture :: texts' = rest at h
    cases h with
    | single => simp at hrest
    | @cons _ gap s _ hgap hnegap hws h =>
      rw [← hrest] at h
      have hgaps : Text.replaceFirst picture x (gap ++ s) = gap ++ Text.replaceFirst picture x s := by
        refine replaceFirst_append (fun u y huy hy hfront => ?_) x
        obtain ⟨c, r, rfl, hc⟩ := hfirst
        obtain ⟨d, y, rfl⟩ := List.exists_cons_of_ne_nil hy
        obtain ⟨rest, hrest⟩ := hfront
        obtain ⟨rfl, -⟩ := List.cons.inj hrest
        rw [hgap c (by simp [huy])] at hc
        contradiction
      rw [replaceFirst_append (hv _ (stop_of_gap hgap hnegap s)), hgaps]
      exact .cons hgap hnegap (by simp) (ih h htexts)

theorem misses_of_none (h : lower picture = "none".toList) (hnone : ¬"none".toList <:+: lower s) :
    Misses picture s := by
  rintro t ht u v rfl hv hfront
  have hnot : ¬picture <+: v := fun hp => hnone <| by
    obtain ⟨r, rfl⟩ := hp
    exact ⟨lower u, lower r, by rw [lower_append, lower_append, h, List.append_assoc]⟩
  obtain hp | ⟨r, rfl⟩ := List.prefix_or_prefix_of_prefix hfront ⟨t, rfl⟩
  · exact hnot hp
  · obtain ⟨rest, hrest⟩ := (List.prefix_append_right_inj v).mp hfront
    cases r with
    | nil => exact hnot ⟨[], by simp⟩
    | cons c r =>
      have hstops : stops.all (fun c => isStop c.toLower) = true := by decide
      have hstop := List.all_eq_true.mp hstops c (mem_stops.mp (ht c (by rw [← hrest]; rfl)))
      have hletters : ("none".toList.all fun d => !isStop d) = true := by decide
      have hletter := List.all_eq_true.mp hletters c.toLower (h ▸ List.mem_map_of_mem (by simp))
      rw [hstop] at hletter
      contradiction

theorem misses_of_call (h : BeginsCall picture) (hopen : '(' ∉ s) : Misses picture s := by
  rintro t ht u v rfl hv ⟨rest, hrest⟩
  obtain ⟨name, r, rfl, hname⟩ := h
  refine not_beginsCall_of_stop (fun hm => hopen (List.mem_append_right u hm)) ht
    ⟨name, r ++ rest, ?_, hname⟩
  rw [← hrest]
  simp

theorem IsCall.beginsCall (h : IsCall k arguments w) : BeginsCall w := by
  obtain ⟨name, hname, rfl⟩ := h
  exact ⟨name, _, rfl, (isCallChar_of_functions hname).2⟩

theorem IsImage.cases (h : IsImage w) : lower w = "none".toList ∨
    ∃ arguments, Shallow arguments ∧ IsCall .image arguments w := by
  refine h.imp_left fun h => ?_
  cases h with
  | keyword h =>
    obtain ⟨x, hx, hlower⟩ := isWordOf_iff.mp h
    rw [hlower, List.mem_singleton.mp hx]
    rfl
  | measure hk _ => contradiction

theorem IsImage.misses (h : IsImage picture) (hopen : '(' ∉ s)
    (hnone : ¬"none".toList <:+: lower s) : Misses picture s := by
  obtain h | ⟨_, _, h⟩ := h.cases
  · exact misses_of_none h hnone
  · exact misses_of_call h.beginsCall hopen

/-- The function of a color does not end as one of an image begins, so no image begins within its
name. -/
theorem not_call_of_suffix (hname : Keyword.isWordOf (Part.functions .color) name = true)
    (hpicture : IsCall .image arguments picture) (hu : u <:+ name) (r : List Char) :
    ¬picture <+: u ++ '(' :: r := by
  rintro ⟨rest, hrest⟩
  obtain ⟨called, hcalled, rfl⟩ := hpicture
  obtain ⟨y, hy, hlower⟩ := isWordOf_iff.mp hname
  obtain ⟨z, hz, hcalledlower⟩ := isWordOf_iff.mp hcalled
  have hsame := congrArg (beforeFirst '(') hrest
  rw [List.append_assoc, List.cons_append, beforeFirst_append_cons (not_mem_of_functions hcalled),
    beforeFirst_append_cons fun hm => not_mem_of_functions hname (hu.subset hm)] at hsame
  have hnames : ∀ y ∈ Part.functions .color, ∀ z ∈ Part.functions .image,
      ¬lower z.toList <:+ lower y.toList := by decide
  refine hnames y hy z hz ?_
  rw [← hlower, ← hcalledlower, hsame]
  exact hu.map Char.toLower

theorem no_none_call (hname : Keyword.isWordOf (Part.functions .color) name = true)
    (hnone : ¬"none".toList <:+: lower arguments) :
    ¬"none".toList <:+: lower (name ++ '(' :: (arguments ++ [')'])) := by
  have hnames : ∀ y ∈ Part.functions .color, ¬"none".toList <:+: lower y.toList := by decide
  obtain ⟨y, hy, hlower⟩ := isWordOf_iff.mp hname
  intro hm
  rw [lower_append] at hm
  obtain hm | hm := infix_append_cons (by decide) hm
  · exact hnames y hy (hlower ▸ hm)
  · have hm : "none".toList <:+: lower (arguments ++ [')']) := hm
    rw [lower_append] at hm
    obtain hm | hm := infix_append_cons (by decide) hm
    · exact hnone hm
    · exact absurd (List.infix_nil.mp hm) (by decide)

/-- No image stands over the end of the call of a color. -/
theorem IsImage.misses_call (h : IsImage picture) (hplain : ∀ c ∈ arguments, isPlain c = true)
    (hnone : ¬"none".toList <:+: lower arguments) (hw : IsCall .color arguments w) :
    Misses picture w := by
  obtain ⟨name, hname, rfl⟩ := hw
  obtain himage | ⟨inner, -, himage⟩ := h.cases
  · exact misses_of_none himage (no_none_call hname hnone)
  have hopen : '(' ∉ arguments ++ [')'] := by
    intro hm
    obtain hm | hm := List.mem_append.mp hm
    · exact absurd (hplain '(' hm) (by decide)
    · exact absurd hm (by decide)
  intro t ht u v hsplit hv hfront
  obtain ⟨x, rfl, hx⟩ | ⟨x, rfl, rfl⟩ := List.append_eq_append_iff.mp hsplit
  · cases x with
    | nil =>
      rw [← List.nil_append v, ← hx] at hfront
      exact not_call_of_suffix hname himage List.nil_suffix _ hfront
    | cons c x =>
      obtain ⟨-, hsuffix⟩ := List.cons.inj hx
      exact misses_of_call himage.beginsCall hopen t ht x v hsuffix hv hfront
  · rw [List.append_assoc] at hfront
    exact not_call_of_suffix hname himage (List.suffix_append u x) _ hfront

end StyleFold.BackgroundShorthand
