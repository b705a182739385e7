import StyleFold.Proofs.Shorthand.Background.Segments
import StyleFold.Shorthand.Basic

/-!
The slots of a background that is written in segments: every slot gets the words of its segment, in
whatever order the segments stand.
-/
namespace StyleFold.BackgroundShorthand
open Text Pattern Declaration

variable {l : Part} {s m gap gap' : List Char} {segments : List Segment} {σ : Segment}
  {f : Segment → List Char} {slot : BackgroundSlot}

def wordsFor (segments : List Segment) (l : Part) : List (List Char) :=
  segments.flatMap fun σ => σ.given l

/-- The words that a slot gets. A single box is both origin and clip. -/
def slotWords (segments : List Segment) : BackgroundSlot → List (List Char)
  | .image => wordsFor segments .image
  | .position => wordsFor segments .position
  | .size => wordsFor segments .size
  | .tiling => wordsFor segments .tiling
  | .attachment => wordsFor segments .attachment
  | .origin => (wordsFor segments .box).head?.toList
  | .clip => (wordsFor segments .box).getLast?.toList
  | .color => wordsFor segments .color

def valueOf : List String → String
  | [] => initial
  | ss => spaced ss

def wordsValue (ws : List (List Char)) : String :=
  valueOf (ws.map String.ofList)

def slotValue (segments : List Segment) (slot : BackgroundSlot) : String :=
  wordsValue (slotWords segments slot)

def Distinct (segments : List Segment) : Prop :=
  (segments.map Segment.part).Nodup

theorem Distinct.exists_split (h : Distinct segments) (hσ : σ ∈ segments) :
    ∃ before after, segments = before ++ σ :: after ∧
      ∀ τ, τ ∈ before ∨ τ ∈ after → τ.part ≠ σ.part := by
  obtain ⟨before, after, rfl⟩ := List.append_of_mem hσ
  refine ⟨before, after, rfl, fun τ hτ heq => ?_⟩
  rw [Distinct, List.map_append, List.map_cons, List.nodup_middle] at h
  refine (List.nodup_cons.mp h).1 ?_
  rw [← List.map_append, ← heq]
  exact List.mem_map_of_mem (List.mem_append.mpr hτ)

theorem Segment.given_eq_nil {τ : Segment} (hl : σ.given l ≠ []) (hne : τ.part ≠ σ.part) :
    τ.given l = [] := by
  by_cases hsize : l = .size
  · subst hsize
    exact sizes_eq_nil fun hτ => hne (hτ.trans (σ.placed hl).symm)
  · by_cases hpart : σ.part = l
    · exact given_of_ne hsize (hpart ▸ hne)
    · exact absurd (given_of_ne hsize hpart) hl

theorem Distinct.wordsFor_eq (h : Distinct segments) (hσ : σ ∈ segments) (hl : σ.given l ≠ []) :
    wordsFor segments l = σ.given l := by
  obtain ⟨before, after, rfl, hothers⟩ := h.exists_split hσ
  have hnil {τs : List Segment} (hτs : ∀ τ ∈ τs, τ.part ≠ σ.part) :
      (τs.flatMap fun τ => τ.given l) = [] :=
    List.flatMap_eq_nil_iff.mpr fun τ hτ => σ.given_eq_nil hl (hτs τ hτ)
  rw [wordsFor, List.flatMap_append, List.flatMap_cons, hnil fun τ hτ => hothers τ (.inl hτ),
    hnil fun τ hτ => hothers τ (.inr hτ), List.nil_append, List.append_nil]

theorem Segment.given_length_le (σ : Segment) (l : Part) : (σ.given l).length ≤ l.limit := by
  rw [given]
  split_ifs with hsize hpart
  · subst hsize
    exact σ.sizes_bounded
  · subst hpart
    exact σ.bounded
  · exact Nat.zero_le _

theorem Distinct.wordsFor_length_le (h : Distinct segments) (l : Part) :
    (wordsFor segments l).length ≤ l.limit := by
  by_cases hall : ∀ σ ∈ segments, σ.given l = []
  · rw [wordsFor, List.flatMap_eq_nil_iff.mpr hall]
    exact Nat.zero_le _
  · obtain ⟨σ, hσ, hl⟩ : ∃ σ ∈ segments, σ.given l ≠ [] := by simpa using hall
    rw [h.wordsFor_eq hσ hl]
    exact σ.given_length_le l

theorem adds_segments (h : ∀ σ ∈ segments, Adds l.pattern (f σ) (σ.given l)) :
    List.Forall₂ (Adds l.pattern) (segments.map f) (segments.map fun σ => σ.given l) := by
  rw [List.forall₂_map_left_iff, List.forall₂_map_right_iff, List.forall₂_same]
  exact h

theorem tokens_segments (h : ∀ σ ∈ segments, Adds l.pattern (f σ) (σ.given l))
    (hs : Joined (segments.map f) s) : tokens l.pattern s = wordsFor segments l := by
  by_cases hne : segments = []
  · subst hne
    cases hs
    rfl
  · have hadds := Adds.joined (firm_pattern l) (adds_segments h) hs (by simpa using hne)
    rw [← List.flatMap_def] at hadds
    have hnil : ∀ c ∈ ([] : List Char), isGap c = true := by simp
    have htokens := hadds.tokens (firm_pattern l) hnil hnil
    rwa [List.nil_append, List.append_nil] at htokens

theorem masked_segments (hs : Joined (segments.map Segment.text) s) :
    Joined (segments.map fun σ => veil σ.text) (masked s) := by
  by_cases hne : segments = []
  · subst hne
    cases hs
    exact .nil
  · have hmasks : List.Forall₂ Masks (segments.map Segment.text)
        (segments.map fun σ => veil σ.text) := by
      rw [List.forall₂_map_left_iff, List.forall₂_map_right_iff, List.forall₂_same]
      exact fun σ _ => σ.masks
    obtain ⟨m, hm, hmasks⟩ := Masks.joined hmasks hs (by simpa using hne)
    have hmasked := hmasks s.length true [] (by simp [Stop]) (by simp)
    rw [List.append_nil] at hmasked
    rw [masked_eq, hmasked]
    simpa [maskedFrom, piecesFrom] using hm

/-- The image is the first that is found, and what is removed is its segment. -/
theorem withoutImage_segments (h : Distinct segments) (hs : Joined (segments.map Segment.text) s) :
    Joined (segments.map Segment.unpictured) (withoutImage s) := by
  have htokens : tokens image s = wordsFor segments .image :=
    tokens_segments (l := .image) (fun σ _ => σ.adds_image) hs
  by_cases hall : ∀ σ ∈ segments, σ.part ≠ .image
  · have hnone : wordsFor segments .image = [] :=
      List.flatMap_eq_nil_iff.mpr fun σ hσ => Segment.given_of_ne (by decide) (hall σ hσ)
    have hmap : segments.map Segment.unpictured = segments.map Segment.text :=
      List.map_congr_left fun σ hσ => if_neg (hall σ hσ)
    rw [withoutImage, firstToken?, htokens, hnone, hmap]
    exact hs
  · obtain ⟨σ, hσ, hpart⟩ : ∃ σ ∈ segments, σ.part = .image := by simpa using hall
    have hwords : σ.given .image = [σ.text] := by
      rw [← hpart, σ.given_part, Segment.words_eq (by rw [hpart]; rfl) (by rw [hpart]; decide)]
    have himage : IsImage σ.text := by
      have hspelled := σ.spelled σ.text (by rw [← σ.given_part, hpart, hwords]; simp)
      rwa [hpart] at hspelled
    have hgiven := h.wordsFor_eq hσ (l := .image) (by simp [hwords])
    obtain ⟨before, after, rfl, hothers⟩ := h.exists_split hσ
    have hmap {τs : List Segment} (hτs : ∀ τ ∈ τs, τ.part ≠ σ.part) :
        τs.map Segment.unpictured = τs.map Segment.text :=
      List.map_congr_left fun τ hτ => if_neg (hpart ▸ hτs τ hτ)
    rw [withoutImage, firstToken?, htokens, hgiven, hwords, List.head?_cons, List.map_append,
      List.map_cons, hmap fun τ hτ => hothers τ (.inl hτ), hmap fun τ hτ => hothers τ (.inr hτ),
      Segment.unpictured, if_pos hpart]
    rw [List.map_append, List.map_cons] at hs
    refine hs.replaceFirst ?_ ?_
    · obtain ⟨c, r, hcr, hc⟩ := (firm_pattern .image).head
        (takes_image himage (t := []) (by simp [Stop])).language
      exact ⟨c, r, hcr, not_isGap_of_not_isStop hc⟩
    · intro _ hw
      obtain ⟨τ, hτ, rfl⟩ := List.mem_map.mp hw
      exact τ.misses himage (hpart ▸ hothers τ (.inl hτ))

theorem not_mem_slash_veils (h : ∀ σ ∈ segments, σ.sizes = []) :
    ∀ w ∈ segments.map fun σ => veil σ.text, '/' ∉ w := by
  intro _ hw
  obtain ⟨σ, hσ, rfl⟩ := List.mem_map.mp hw
  exact σ.not_mem_veil (h σ hσ)

theorem adds_nothing (h : ∀ σ ∈ segments, σ.part ≠ .position)
    (hl : l = .position ∨ l = .size) : List.Forall₂ (Adds l.pattern)
      (segments.map fun σ => veil σ.text) (segments.map fun _ => []) := by
  rw [List.forall₂_map_left_iff, List.forall₂_map_right_iff, List.forall₂_same]
  intro σ hσ
  have hposition := h σ hσ
  have hsize := σ.part_ne
  have hunmeasured : σ.part.isMeasured = false := by
    cases hpart : σ.part <;> first | rfl | contradiction
  refine (σ.skips_veil ?_ (.inl hunmeasured)).adds
  obtain rfl | rfl := hl
  · exact hposition
  · exact hsize

theorem tokens_unsized (h : ∀ σ ∈ segments, σ.sizes = [])
    (hm : Joined (segments.map fun σ => veil σ.text) m) :
    tokens position (beforeFirst '/' m) = wordsFor segments .position ∧
      afterFirst? '/' m = none := by
  have hslash : '/' ∉ m := by
    intro hmem
    obtain hgap | ⟨w, hw, hmem⟩ := hm.exists_of_mem hmem
    · exact absurd hgap (by decide)
    · exact not_mem_slash_veils h w hw hmem
  rw [beforeFirst_eq_self hslash]
  refine ⟨tokens_segments (l := .position) (fun σ hσ => ?_) hm, afterFirst?_eq_none hslash⟩
  exact σ.adds_veil (by decide) (by decide) (by decide) fun _ => h σ hσ

/-- The text in front of the first slash ends with the words of the position, and the text behind
it begins with those of the size. -/
theorem tokens_sized {before after : List Segment} (hsizes : σ.sizes ≠ [])
    (hothers : ∀ τ, τ ∈ before ∨ τ ∈ after → τ.part ≠ .position)
    (hm : Joined ((before ++ σ :: after).map fun σ => veil σ.text) m) :
    tokens position (beforeFirst '/' m) = σ.words ∧
      (afterFirst? '/' m).map (tokens size) = some σ.sizes := by
  have hpart := σ.placed hsizes
  have hwords := σ.spelled
  rw [hpart] at hwords
  have hopen : '(' ∉ σ.text := σ.not_mem_open (by rw [hpart]; exact hwords)
  obtain ⟨s, t, gap, gap', hs, ht, hgap, hgap', htext⟩ := Segment.exists_sized hsizes
  rw [List.map_append, List.map_cons, veil, if_neg hopen, htext] at hm
  obtain ⟨x, y, rfl, hxy⟩ := hm.split
  have hfront : '/' ∉ x ++ (s ++ gap) := by
    intro hmem
    rw [← List.append_assoc] at hmem
    obtain hmem | hmem := List.mem_append.mp hmem
    · obtain hmem | ⟨w, hw, hmem⟩ := (hxy s).1.exists_of_mem hmem
      · exact absurd hmem (by decide)
      · obtain hw | hw := List.mem_append.mp hw
        · exact not_mem_slash_veils (fun τ hτ => τ.sizes_eq_nil (hothers τ (.inl hτ))) w hw hmem
        · rw [List.mem_singleton.mp hw] at hmem
          exact not_mem_words hwords hs (by decide) (by decide) hmem
    · exact absurd (hgap '/' hmem) (by decide)
  have hm : x ++ (s ++ gap ++ '/' :: (gap' ++ t) ++ y) =
      x ++ (s ++ gap) ++ '/' :: (gap' ++ (t ++ y)) := by simp
  rw [hm, beforeFirst_append_cons hfront, afterFirst?_append_cons hfront]
  have hnil : ∀ c ∈ ([] : List Char), isGap c = true := by simp
  have hfirst := Adds.joined (firm_pattern .position)
    (List.rel_append (adds_nothing (fun τ hτ => hothers τ (.inl hτ)) (.inl rfl))
      (.cons (adds_words hwords σ.filled hs) .nil)) (hxy s).1 (by simp)
  have hlast := Adds.joined (firm_pattern .size)
    (.cons (adds_words σ.sizes_spelled hsizes ht)
      (adds_nothing (fun τ hτ => hothers τ (.inr hτ)) (.inr rfl))) (hxy t).2.1 (by simp)
  have hposition := hfirst.tokens (firm_pattern .position) hnil hgap
  have hsize := hlast.tokens (firm_pattern .size) hgap' hnil
  simp only [Part.pattern] at hposition hsize
  exact ⟨by simpa using hposition, by simpa using hsize⟩

/-- Without function calls the words of the position are those in front of the first slash, and
those of the size the ones behind it. -/
theorem tokens_place (h : Distinct segments)
    (hm : Joined (segments.map fun σ => veil σ.text) m) :
    tokens position (beforeFirst '/' m) = wordsFor segments .position ∧
      ((afterFirst? '/' m).map (tokens size)).getD [] = wordsFor segments .size := by
  by_cases hall : ∀ σ ∈ segments, σ.sizes = []
  · obtain ⟨hposition, hsize⟩ := tokens_unsized hall hm
    refine ⟨hposition, ?_⟩
    rw [hsize]
    exact (List.flatMap_eq_nil_iff.mpr hall).symm
  · obtain ⟨σ, hσ, hsizes⟩ : ∃ σ ∈ segments, σ.sizes ≠ [] := by simpa using hall
    have hpart := σ.placed hsizes
    have hgiven : σ.given .position = σ.words := hpart ▸ σ.given_part
    have hwords : wordsFor segments .position = σ.words := by
      rw [h.wordsFor_eq hσ (hgiven ▸ σ.filled), hgiven]
    have hsizesFor : wordsFor segments .size = σ.sizes := h.wordsFor_eq hσ (l := .size) hsizes
    obtain ⟨before, after, rfl, hothers⟩ := h.exists_split hσ
    rw [hpart] at hothers
    obtain ⟨hposition, hsize⟩ := tokens_sized hsizes hothers hm
    rw [hwords, hsizesFor, hsize]
    exact ⟨hposition, rfl⟩

theorem orInitial_firstToken {p : Pattern} {ws : List (List Char)} (h : tokens p s = ws)
    (hlength : ws.length ≤ 1) : orInitial (firstToken? p s) = wordsValue ws := by
  rw [firstToken?, h]
  match ws, hlength with
  | [], _ => rfl
  | [w], _ => rfl

theorem orInitial_firstTokens {p : Pattern} {ws : List (List Char)} {n : Nat} (h : tokens p s = ws)
    (hlength : ws.length ≤ n) : orInitial (firstTokens? n p s) = wordsValue ws := by
  rw [firstTokens?, h, List.take_of_length_le hlength]
  cases ws with
  | nil => rfl
  | cons w ws => exact String.ofList_toList

theorem orInitial_size {ws : List (List Char)}
    (h : ((afterFirst? '/' s).map (tokens size)).getD [] = ws) (hlength : ws.length ≤ 2) :
    orInitial ((afterFirst? '/' s).bind (firstTokens? 2 size)) = wordsValue ws := by
  cases hafter : afterFirst? '/' s with
  | none =>
    rw [hafter] at h
    subst h
    rfl
  | some t =>
    rw [hafter] at h
    exact orInitial_firstTokens h hlength

theorem orInitial_head? (ws : List (List Char)) :
    orInitial ws.head? = wordsValue ws.head?.toList := by
  cases ws <;> rfl

theorem orInitial_getLast? {ws : List (List Char)} (hlength : ws.length ≤ 2) :
    orInitial (ws[1]?.or ws.head?) = wordsValue ws.getLast?.toList := by
  match ws, hlength with
  | [], _ => rfl
  | [w], _ => rfl
  | [w, x], _ => rfl

/-- Every slot of a background in segments gets its words. -/
theorem orInitial_slotText (h : Distinct segments) (hs : Joined (segments.map Segment.text) s)
    (slot : BackgroundSlot) :
    orInitial (slotText? s (masked s) slot) = slotValue segments slot := by
  have hmasked := masked_segments hs
  have hveil {l : Part} (himage : l ≠ .image) (hcolor : l ≠ .color) (hl : l ≠ .size)
      (hposition : l ≠ .position) : tokens l.pattern (masked s) = wordsFor segments l :=
    tokens_segments (fun σ _ => σ.adds_veil himage hcolor hl fun h => absurd h hposition) hmasked
  have hboxes : boxes (masked s) = wordsFor segments .box :=
    hveil (l := .box) (by decide) (by decide) (by decide) (by decide)
  have hplace := tokens_place h hmasked
  have hlength := h.wordsFor_length_le
  cases slot with
  | image =>
    exact orInitial_firstToken (tokens_segments (l := .image) (fun σ _ => σ.adds_image) hs)
      (hlength .image)
  | position => exact orInitial_firstTokens hplace.1 (hlength .position)
  | size => exact orInitial_size hplace.2 (hlength .size)
  | tiling =>
    exact orInitial_firstTokens (hveil (l := .tiling) (by decide) (by decide) (by decide) (by decide))
      (hlength .tiling)
  | attachment =>
    exact orInitial_firstToken
      (hveil (l := .attachment) (by decide) (by decide) (by decide) (by decide)) (hlength .attachment)
  | origin =>
    rw [slotText?, hboxes]
    exact orInitial_head? _
  | clip =>
    rw [slotText?, hboxes]
    exact orInitial_getLast? (hlength .box)
  | color =>
    exact orInitial_firstToken (tokens_segments (l := .color) (fun σ _ => σ.adds_color)
      (withoutImage_segments h hs)) (hlength .color)

theorem expand_eq (policy : DuplicatePolicy) (value : String) (important : Bool) :
    Shorthand.expand ⟨.background, policy⟩ ⟨"background", value, important⟩ =
      .ok (BackgroundSlot.all.map fun slot => ⟨slot.longhand,
        orInitial (slotText? value.toList (masked value.toList) slot), important⟩) := by
  have hlowercase (slot : BackgroundSlot) : lowercase slot.longhand = slot.longhand := by
    cases slot <;> decide
  have hproperty : "background" = Shorthand.property ⟨.background, policy⟩ := rfl
  rw [Shorthand.expand, if_pos hproperty]
  simp only [Family.longhands, longhands, slotLonghands, List.map_map]
  refine congrArg Except.ok (List.map_congr_left fun slot _ => ?_)
  simp only [Function.comp_apply, Declaration.of, withPriority, hlowercase]

/-- A background is expanded to the words of its segments, whichever of them it has, in whatever order
they stand, and with whatever gaps. -/
theorem expand_segments (policy : DuplicatePolicy) {value : String} (important : Bool)
    (h : Distinct segments) (hvalue : Joined (segments.map Segment.text) value.toList) :
    Shorthand.expand ⟨.background, policy⟩ ⟨"background", value, important⟩ =
      .ok (BackgroundSlot.all.map fun slot =>
        ⟨slot.longhand, slotValue segments slot, important⟩) := by
  rw [expand_eq]
  simp only [orInitial_slotText h hvalue]

/-- A color, a position with a size, and an image. -/
def hexPlaceUrl : List Segment := [
  { part := .color
    words := ["#0aF".toList]
    sizes := []
    text := "#0aF".toList
    part_ne := by decide
    filled := by decide
    bounded := by decide
    spelled := List.forall_mem_singleton.mpr (.inl (.hex ⟨"0aF".toList, rfl,
      List.all_eq_true.mp (by decide), .inr rfl⟩))
    placed := fun h => absurd rfl h
    sizes_bounded := by decide
    sizes_spelled := nofun
    written := .alone (.single _) },
  { part := .position
    words := ["LEFT".toList]
    sizes := ["cover".toList]
    text := "LEFT /cover".toList
    part_ne := by decide
    filled := by decide
    bounded := by decide
    spelled := List.forall_mem_singleton.mpr (.keyword (by decide))
    placed := fun _ => rfl
    sizes_bounded := by decide
    sizes_spelled := List.forall_mem_singleton.mpr (.keyword (by decide))
    written := @Written.sized _ _ _ _ [' '] [] (.single _) (.single _) (by decide)
      (List.forall_mem_singleton.mpr rfl) nofun },
  { part := .image
    words := ["url(a(b))".toList]
    sizes := []
    text := "url(a(b))".toList
    part_ne := by decide
    filled := by decide
    bounded := by decide
    spelled := List.forall_mem_singleton.mpr (.inr ⟨"a(b)".toList,
      .plain rfl (.bracket (List.forall_mem_singleton.mpr rfl) .nil), "url".toList, by decide, rfl⟩)
    placed := fun h => absurd rfl h
    sizes_bounded := by decide
    sizes_spelled := nofun
    written := .alone (.single _) }]

theorem expand_segments_hexPlaceUrl : Distinct hexPlaceUrl ∧
    Joined (hexPlaceUrl.map Segment.text) "#0aF  LEFT /cover\turl(a(b))".toList ∧
      Shorthand.expand ⟨.background, .first⟩
        ⟨"background", "#0aF  LEFT /cover\turl(a(b))", true⟩ = .ok [
          ⟨"background-image", "url(a(b))", true⟩, ⟨"background-position", "LEFT", true⟩,
          ⟨"background-size", "cover", true⟩, ⟨"background-repeat", "initial", true⟩,
          ⟨"background-attachment", "initial", true⟩, ⟨"background-origin", "initial", true⟩,
          ⟨"background-clip", "initial", true⟩, ⟨"background-color", "#0aF", true⟩] := by
  have hdistinct : Distinct hexPlaceUrl := by
    unfold Distinct
    decide
  have hjoined : Joined (hexPlaceUrl.map Segment.text)
      ("#0aF".toList ++ ([' ', ' '] ++ ("LEFT /cover".toList ++ (['\t'] ++ "url(a(b))".toList)))) :=
    .cons (List.all_eq_true.mp (by decide)) (by decide) (by decide)
      (.cons (List.all_eq_true.mp (by decide)) (by decide) (by decide) (.single _))
  exact ⟨hdistinct, hjoined, expand_segments .first true hdistinct hjoined⟩

end StyleFold.BackgroundShorthand
