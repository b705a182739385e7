import StyleFold.Proofs.Declaration.Lookup
import StyleFold.Proofs.Shorthand.Background.Slots
import StyleFold.Proofs.Value.Spaced

/-!
The background that eight longhands make up is written in segments. It is expanded to the same
longhands, but for the defaults that had to be written next to others.
-/
namespace StyleFold.BackgroundShorthand
open Text Pattern Declaration Value

variable {k l : Part} {slot : BackgroundSlot} {ws zs : List (List Char)} {ps ps' : List String}
  {segments segments' : List Segment} {policy : DuplicatePolicy} {ds : List Declaration}
  {found : BackgroundSlot → Declaration} {given : BackgroundSlot → Option String}
  {v position size origin clip : Option String}

def slotPart : BackgroundSlot → Part
  | .image => .image
  | .position => .position
  | .size => .size
  | .tiling => .tiling
  | .attachment => .attachment
  | .origin | .clip => .box
  | .color => .color

/-- How many words a slot can have. Origin and clip have one each. -/
def slotLimit : BackgroundSlot → Nat
  | .origin | .clip => 1
  | slot => (slotPart slot).limit

structure Fits (slot : BackgroundSlot) (ws : List (List Char)) : Prop where
  filled : ws ≠ []
  bounded : ws.length ≤ slotLimit slot
  spelled : ∀ w ∈ ws, Spells (slotPart slot) w

def Valid (slot : BackgroundSlot) (value : String) : Prop :=
  ∃ ws, Fits slot ws ∧ value = spaced (ws.map String.ofList)

/-- A clip that is the same word as the origin is not written, and comes back as the origin is
spelled. -/
def returnedClip : (origin clip : Option String) → String
  | some origin, some clip => if sameWord origin.toList clip.toList then origin else clip
  | some _, none => "border-box"
  | none, some clip => clip
  | none, none => initial

/-- What the slots come back with: their values, with the defaults that are written for a position
next to a size, and for one of origin and clip next to the other. -/
def returned (given : BackgroundSlot → Option String) : BackgroundSlot → String
  | .position => (given .position).getD (if (given .size).isSome then "0% 0%" else initial)
  | .origin => (given .origin).getD (if (given .clip).isSome then "padding-box" else initial)
  | .clip => returnedClip (given .origin) (given .clip)
  | slot => (given slot).getD initial

def Consists (slot : BackgroundSlot) : Option String → List (List Char) → Prop
  | none, ws => ws = []
  | some v, ws => Fits slot ws ∧ v = spaced (ws.map String.ofList)

theorem Consists.wordsValue_eq (h : Consists slot v ws) : wordsValue ws = v.getD initial := by
  cases v with
  | none =>
    obtain rfl : ws = [] := h
    rfl
  | some v =>
    obtain ⟨hfits, rfl⟩ := h
    obtain ⟨w, ws, rfl⟩ := List.exists_cons_of_ne_nil hfits.filled
    rfl

theorem joined_spaced (ws : List (List Char)) : Joined ws (spaced (ws.map String.ofList)).toList := by
  induction ws with
  | nil => exact .nil
  | cons w ws ih =>
    by_cases hne : ws = []
    · rw [hne, List.map_singleton, spaced, String.toList_ofList]
      exact .single w
    · rw [List.map_cons, toList_spaced_cons _ (by simpa using hne), String.toList_ofList]
      exact .cons (List.forall_mem_singleton.mpr rfl) (List.cons_ne_nil ' ' []) hne ih

def Shows (segments : List Segment) (ps : List String) : Prop :=
  (segments = [] ↔ ps = []) ∧ Joined (segments.map Segment.text) (spaced ps).toList

theorem Shows.append (h : Shows segments ps) (h' : Shows segments' ps') :
    Shows (segments ++ segments') (ps ++ ps') := by
  refine ⟨by rw [List.append_eq_nil_iff, List.append_eq_nil_iff, h.1, h'.1], ?_⟩
  by_cases hne : ps = []
  · rw [hne, h.1.mpr hne]
    exact h'.2
  by_cases hne' : ps' = []
  · rw [hne', h'.1.mpr hne', List.append_nil, List.append_nil]
    exact h.2
  · rw [toList_spaced_append hne hne', List.map_append]
    exact h.2.append h'.2 (by simpa [h.1] using hne) (by simpa [h'.1] using hne')
      (List.forall_mem_singleton.mpr rfl) (List.cons_ne_nil ' ' [])

/-- At most one segment, which is for the part and has these words and sizes. -/
inductive Holds (k : Part) : (words sizes : List (List Char)) → List Segment → Prop
  | absent : Holds k [] [] []
  | present (σ : Segment) (h : σ.part = k) : Holds k σ.words σ.sizes [σ]

namespace Holds

theorem parts_sublist (h : Holds k ws zs segments) : (segments.map Segment.part).Sublist [k] := by
  cases h with
  | absent => exact List.nil_sublist _
  | present σ h => rw [List.map_singleton, h]

theorem wordsFor_eq (h : Holds k ws zs segments) (l : Part) :
    wordsFor segments l = if l = .size then zs else if k = l then ws else [] := by
  cases h with
  | absent => simp [wordsFor]
  | present σ h => rw [wordsFor, List.flatMap_singleton, Segment.given, h]

end Holds

theorem exists_alone (h : Consists slot v ws) (hslot : slotPart slot ≠ .size) :
    ∃ segments, Shows segments v.toList ∧ Holds (slotPart slot) ws [] segments := by
  cases v with
  | none =>
    obtain rfl : ws = [] := h
    exact ⟨[], ⟨by simp, .nil⟩, .absent⟩
  | some v =>
    obtain ⟨hfits, rfl⟩ := h
    have hlimit : slotLimit slot ≤ (slotPart slot).limit := by cases slot <;> decide
    let σ : Segment := ⟨slotPart slot, ws, [], _, hslot, hfits.filled, hfits.bounded.trans hlimit,
      hfits.spelled, fun h => absurd rfl h, Nat.zero_le _, List.forall_mem_nil _, .alone (joined_spaced ws)⟩
    exact ⟨[σ], ⟨by simp, .single _⟩, .present σ rfl⟩

theorem exists_place (hposition : Consists .position position ws) (hsize : Consists .size size zs) :
    ∃ segments words, Shows segments (placement position size) ∧
      Holds .position words zs segments ∧
        wordsValue words = position.getD (if size.isSome then "0% 0%" else initial) := by
  cases size with
  | none =>
    obtain rfl : zs = [] := hsize
    obtain ⟨segments, hshows, hholds⟩ := exists_alone hposition (by decide)
    refine ⟨segments, ws, ?_, hholds, hposition.wordsValue_eq⟩
    cases position <;> exact hshows
  | some z =>
    obtain ⟨hz, rfl⟩ := hsize
    obtain ⟨words, hwords, hspaced⟩ : Valid .position (position.getD "0% 0%") := by
      cases position with
      | none =>
        have hzero : IsWord .position "0%".toList := .measure rfl
          (@IsMeasure.of [] ['0'] ['%'] (.inl rfl) (.whole (by decide)
            (List.forall_mem_singleton.mpr rfl)) (.inr (by decide +kernel)))
        exact ⟨["0%".toList, "0%".toList], ⟨by decide, by decide,
          List.forall_mem_cons.mpr ⟨hzero, List.forall_mem_singleton.mpr hzero⟩⟩, rfl⟩
      | some p => exact ⟨ws, hposition⟩
    have htext : (spaced [spaced (words.map String.ofList), "/", spaced (zs.map String.ofList)]).toList =
        (spaced (words.map String.ofList)).toList ++
          ([' '] ++ '/' :: ([' '] ++ (spaced (zs.map String.ofList)).toList)) := by
      simp [spaced]
    have hspace : ∀ c ∈ [' '], isGap c = true := List.forall_mem_singleton.mpr rfl
    let σ : Segment := ⟨.position, words, zs, _, by decide, hwords.filled, hwords.bounded,
      hwords.spelled, fun _ => rfl, hz.bounded, hz.spelled,
      .sized (joined_spaced words) (joined_spaced zs) hz.filled hspace hspace⟩
    refine ⟨[σ], words, ⟨by simp [placement], ?_⟩, .present σ rfl, ?_⟩
    · rw [placement, hspaced, htext]
      exact .single _
    · have hconsists : Consists .position (some (position.getD "0% 0%")) words := ⟨hwords, hspaced⟩
      exact hconsists.wordsValue_eq

theorem Fits.exists_single (h : Fits slot ws) (hlimit : slotLimit slot = 1) : ∃ w, ws = [w] :=
  List.length_eq_one_iff.mp
    (le_antisymm (hlimit ▸ h.bounded) (List.length_pos_iff.mpr h.filled))

theorem Consists.exists_box {v : String} (h : Consists slot (some v) ws)
    (hslot : slot = .origin ∨ slot = .clip) :
    ∃ w, ws = [w] ∧ IsWord .box w ∧ v = String.ofList w := by
  obtain ⟨hfits, rfl⟩ := h
  obtain rfl | rfl := hslot
  all_goals
    obtain ⟨w, rfl⟩ := hfits.exists_single rfl
    exact ⟨w, rfl, hfits.spelled w List.mem_cons_self, rfl⟩

theorem exists_boxes_two {w x : List Char} (hw : IsWord .box w) (hx : IsWord .box x) :
    ∃ segments, Shows segments [String.ofList w, String.ofList x] ∧
      Holds .box [w, x] [] segments := by
  let σ : Segment := ⟨.box, [w, x], [], _, by decide, by simp, by simp [Part.limit],
    List.forall_mem_cons.mpr ⟨hw, List.forall_mem_singleton.mpr hx⟩, fun h => absurd rfl h,
    Nat.zero_le _, List.forall_mem_nil _, .alone (joined_spaced [w, x])⟩
  exact ⟨[σ], ⟨by simp, .single _⟩, .present σ rfl⟩

theorem exists_boxes (horigin : Consists .origin origin ws) (hclip : Consists .clip clip zs) :
    ∃ segments words, Shows segments (boxWords origin clip) ∧ Holds .box words [] segments ∧
      wordsValue words.head?.toList =
          origin.getD (if clip.isSome then "padding-box" else initial) ∧
        wordsValue words.getLast?.toList = returnedClip origin clip := by
  have hpadding : IsWord .box "padding-box".toList := .keyword (by decide)
  have hborder : IsWord .box "border-box".toList := .keyword (by decide)
  cases origin with
  | none =>
    cases clip with
    | none =>
      obtain rfl : ws = [] := horigin
      exact ⟨[], [], ⟨by simp [boxWords], .nil⟩, .absent, rfl, rfl⟩
    | some c =>
      obtain ⟨x, rfl, hx, rfl⟩ := hclip.exists_box (.inr rfl)
      obtain ⟨segments, hshows, hholds⟩ := exists_boxes_two hpadding hx
      exact ⟨segments, _, hshows, hholds, rfl, rfl⟩
  | some o =>
    obtain ⟨w, rfl, hw, rfl⟩ := horigin.exists_box (.inl rfl)
    cases clip with
    | none =>
      obtain ⟨segments, hshows, hholds⟩ := exists_boxes_two hw hborder
      exact ⟨segments, _, hshows, hholds, rfl, rfl⟩
    | some c =>
      obtain ⟨x, rfl, hx, rfl⟩ := hclip.exists_box (.inr rfl)
      rw [boxWords, returnedClip]
      by_cases hsame : sameWord (String.ofList w).toList (String.ofList x).toList = true
      · rw [if_pos hsame, if_pos hsame]
        obtain ⟨segments, hshows, hholds⟩ := exists_alone horigin (by decide)
        exact ⟨segments, [w], hshows, hholds, rfl, rfl⟩
      · rw [if_neg hsame, if_neg hsame]
        obtain ⟨segments, hshows, hholds⟩ := exists_boxes_two hw hx
        exact ⟨segments, _, hshows, hholds, rfl, rfl⟩

theorem wordsFor_append (l : Part) :
    wordsFor (segments ++ segments') l = wordsFor segments l ++ wordsFor segments' l :=
  List.flatMap_append

theorem exists_segments (h : ∀ slot, ∀ v ∈ given slot, Valid slot v) :
    ∃ segments, Distinct segments ∧ Shows segments (parts given) ∧
      ∀ slot, slotValue segments slot = returned given slot := by
  have hconsists (slot : BackgroundSlot) : ∃ ws, Consists slot (given slot) ws := by
    cases hgiven : given slot with
    | none => exact ⟨[], rfl⟩
    | some v => exact h slot v hgiven
  choose words hwords using hconsists
  obtain ⟨images, hshowsImage, hholdsImage⟩ := exists_alone (hwords .image) (by decide)
  obtain ⟨places, placed, hshowsPlace, hholdsPlace, hplaced⟩ :=
    exists_place (hwords .position) (hwords .size)
  obtain ⟨tilings, hshowsTiling, hholdsTiling⟩ := exists_alone (hwords .tiling) (by decide)
  obtain ⟨attachments, hshowsAttachment, hholdsAttachment⟩ :=
    exists_alone (hwords .attachment) (by decide)
  obtain ⟨boxes, boxed, hshowsBox, hholdsBox, hfirst, hlast⟩ :=
    exists_boxes (hwords .origin) (hwords .clip)
  obtain ⟨colors, hshowsColor, hholdsColor⟩ := exists_alone (hwords .color) (by decide)
  refine ⟨images ++ places ++ tilings ++ attachments ++ boxes ++ colors, ?_,
    ((((hshowsImage.append hshowsPlace).append hshowsTiling).append hshowsAttachment).append
      hshowsBox).append hshowsColor, fun slot => ?_⟩
  · have hsublist := ((((hholdsImage.parts_sublist.append hholdsPlace.parts_sublist).append
      hholdsTiling.parts_sublist).append hholdsAttachment.parts_sublist).append
        hholdsBox.parts_sublist).append hholdsColor.parts_sublist
    simp only [← List.map_append] at hsublist
    exact List.Nodup.sublist hsublist (by decide)
  · have hvalue := fun slot => (hwords slot).wordsValue_eq
    simp only [slotValue, slotWords, returned, wordsFor_append, hholdsImage.wordsFor_eq,
      hholdsPlace.wordsFor_eq, hholdsTiling.wordsFor_eq, hholdsAttachment.wordsFor_eq,
      hholdsBox.wordsFor_eq, hholdsColor.wordsFor_eq, slotPart]
    cases slot <;> simp [hvalue, hplaced, hfirst, hlast]

theorem selected_eq_ok (hfound : ∀ slot, find policy slot.longhand ds = .ok (some (found slot)))
    (slots : List BackgroundSlot) :
    selected policy ds slots = .ok (slots.map fun slot => (slot, found slot)) := by
  induction slots with
  | nil => rfl
  | cons slot slots ih =>
    rw [selected, require, hfound slot, ih]
    rfl

def setValue? (d : Declaration) : Option String :=
  if d.isInitial then none else some d.trimmedValue

theorem given?_found (found : BackgroundSlot → Declaration) (slot : BackgroundSlot) :
    given? (BackgroundSlot.all.map fun slot => (slot, found slot)) slot =
      setValue? (found slot) := by
  cases slot <;> rfl

theorem tokens_initial (l : Part) : tokens l.pattern initial.toList = [] := by
  have hwordy : ∀ c ∈ initial.toList, isWordy c = true :=
    List.all_eq_true.mp (by decide)
  have hskips := skips_of_wordy (by decide) hwordy (not_isWord_initial l)
  have hnil : ∀ c ∈ ([] : List Char), isGap c = true := List.forall_mem_nil _
  have htokens := hskips.adds.tokens (firm_pattern l) hnil hnil
  rwa [List.nil_append, List.append_nil] at htokens

theorem slotText?_initial (slot : BackgroundSlot) :
    slotText? initial.toList (masked initial.toList) slot = none := by
  have hmasked : masked initial.toList = initial.toList := by
    have hmasks := Masks.plain (s := initial.toList) (by decide) (by decide) initial.toList.length
      true [] (by simp [Stop]) (by simp)
    rw [List.append_nil] at hmasks
    exact hmasks.trans (List.append_nil _)
  have himage : withoutImage initial.toList = initial.toList := by
    have htokens : tokens image initial.toList = [] := tokens_initial .image
    rw [withoutImage, firstToken?, htokens, List.head?_nil]
  have hslash : '/' ∉ initial.toList := by decide
  have htokens := tokens_initial
  rw [hmasked]
  cases slot with
  | image =>
    have himage : tokens image initial.toList = [] := htokens .image
    rw [slotText?, firstToken?, himage, List.head?_nil]
  | position =>
    have hposition : tokens position initial.toList = [] := htokens .position
    rw [slotText?, beforeFirst_eq_self hslash, firstTokens?, hposition, List.take_nil]
  | size =>
    rw [slotText?, afterFirst?_eq_none hslash, Option.bind_none]
  | tiling =>
    have htiling : tokens (oneOf (Keyword.words RepeatStyle)) initial.toList = [] := htokens .tiling
    rw [slotText?, firstTokens?, htiling, List.take_nil]
  | attachment =>
    have hattachment : tokens (oneOf (Keyword.words Attachment)) initial.toList = [] :=
      htokens .attachment
    rw [slotText?, firstToken?, hattachment, List.head?_nil]
  | origin | clip =>
    have hboxes : boxes initial.toList = [] := htokens .box
    rw [slotText?, hboxes]
    rfl
  | color =>
    have hcolor : tokens color initial.toList = [] := htokens .color
    rw [slotText?, himage, firstToken?, hcolor, List.head?_nil]

theorem expand_initial (policy : DuplicatePolicy) (important : Bool) :
    Shorthand.expand ⟨.background, policy⟩ ⟨"background", initial, important⟩ =
      .ok (BackgroundSlot.all.map fun slot => ⟨slot.longhand, initial, important⟩) := by
  rw [expand_eq]
  simp only [slotText?_initial]
  rfl

/-- Eight longhands of one priority with valid values collapse to a background that is expanded to
them again. -/
theorem expand_collapse {important : Bool}
    (hfound : ∀ slot, find policy slot.longhand ds = .ok (some (found slot)))
    (hpriority : ∀ slot, (found slot).important = important)
    (hvalid : ∀ slot, (found slot).isInitial = true ∨ Valid slot (found slot).trimmedValue) :
    ∃ value, Shorthand.collapse ⟨.background, policy⟩ ds =
        .ok ⟨"background", value, important⟩ ∧
      Shorthand.expand ⟨.background, policy⟩ ⟨"background", value, important⟩ =
        .ok (BackgroundSlot.all.map fun slot =>
          ⟨slot.longhand, returned (fun slot => setValue? (found slot)) slot, important⟩) := by
  have hgiven : given? (BackgroundSlot.all.map fun slot => (slot, found slot)) =
      fun slot => setValue? (found slot) := funext (given?_found found)
  have hshared : sharedPriority property
      ((BackgroundSlot.all.map fun slot => (slot, found slot)).map Prod.snd) = .ok important := by
    refine sharedPriority_eq_ok (fun d hd => ?_) (by simp [BackgroundSlot.all]) property
    rw [List.map_map] at hd
    obtain ⟨slot, -, rfl⟩ := List.mem_map.mp hd
    exact hpriority slot
  have hset : ∀ slot, ∀ v ∈ setValue? (found slot), Valid slot v := by
    intro slot v hv
    rw [setValue?] at hv
    split at hv
    · contradiction
    · obtain rfl := Option.some.inj hv
      exact (hvalid slot).resolve_left ‹_›
  obtain ⟨segments, hdistinct, ⟨hnil, hjoined⟩, hvalues⟩ := exists_segments hset
  have hcollapse : Shorthand.collapse ⟨.background, policy⟩ ds =
      .ok ⟨"background", valueOf (parts fun slot => setValue? (found slot)), important⟩ := by
    change collapse policy ds = _
    have hlowercase : lowercase property = "background" := by decide
    rw [collapse, selected_eq_ok hfound]
    simp only [bind, Except.bind, hshared, hgiven, Declaration.of, hlowercase, withPriority]
    cases parts fun slot => setValue? (found slot) <;> rfl
  refine ⟨_, hcollapse, ?_⟩
  cases hparts : parts fun slot => setValue? (found slot) with
  | nil =>
    have hinitial (slot : BackgroundSlot) :
        returned (fun slot => setValue? (found slot)) slot = initial := by
      rw [← hvalues slot, hnil.mpr hparts]
      cases slot <;> rfl
    simp only [hinitial]
    exact expand_initial policy important
  | cons p ps =>
    rw [hparts] at hjoined
    have hexpand := expand_segments policy important hdistinct hjoined
    simp only [hvalues] at hexpand
    exact hexpand

/-- A size without a position, a clip without an origin, and a color. -/
def sizeClipColor : BackgroundSlot → Declaration
  | .size => ⟨"background-size", "cover", true⟩
  | .clip => ⟨"background-clip", " Content-Box ", true⟩
  | .color => ⟨"background-color", "#0aF", true⟩
  | slot => ⟨slot.longhand, "INITIAL", true⟩

theorem expand_collapse_sizeClipColor :
    (∀ slot, find .reject slot.longhand (BackgroundSlot.all.map sizeClipColor) =
      .ok (some (sizeClipColor slot))) ∧
    (∀ slot, (sizeClipColor slot).important = true) ∧
    (∀ slot, (sizeClipColor slot).isInitial = true ∨
      Valid slot (sizeClipColor slot).trimmedValue) ∧
    ∃ value, Shorthand.collapse ⟨.background, .reject⟩ (BackgroundSlot.all.map sizeClipColor) =
        .ok ⟨"background", value, true⟩ ∧
      Shorthand.expand ⟨.background, .reject⟩ ⟨"background", value, true⟩ = .ok [
        ⟨"background-image", "initial", true⟩, ⟨"background-position", "0% 0%", true⟩,
        ⟨"background-size", "cover", true⟩, ⟨"background-repeat", "initial", true⟩,
        ⟨"background-attachment", "initial", true⟩, ⟨"background-origin", "padding-box", true⟩,
        ⟨"background-clip", "Content-Box", true⟩, ⟨"background-color", "#0aF", true⟩] := by
  have hfound (slot : BackgroundSlot) : find .reject slot.longhand
      (BackgroundSlot.all.map sizeClipColor) = .ok (some (sizeClipColor slot)) := by
    cases slot <;> decide
  have hpriority (slot : BackgroundSlot) : (sizeClipColor slot).important = true := by
    cases slot <;> rfl
  have hvalid (slot : BackgroundSlot) : (sizeClipColor slot).isInitial = true ∨
      Valid slot (sizeClipColor slot).trimmedValue := by
    cases slot with
    | size =>
      exact .inr ⟨["cover".toList], ⟨by decide, by decide,
        List.forall_mem_singleton.mpr (.keyword (by decide))⟩, by decide⟩
    | clip =>
      exact .inr ⟨["Content-Box".toList], ⟨by decide, by decide,
        List.forall_mem_singleton.mpr (.keyword (by decide))⟩, by decide⟩
    | color =>
      exact .inr ⟨["#0aF".toList], ⟨by decide, by decide, List.forall_mem_singleton.mpr
        (.inl (.hex ⟨"0aF".toList, rfl, List.all_eq_true.mp (by decide), .inr rfl⟩))⟩, by decide⟩
    | _ => exact .inl (by decide)
  obtain ⟨value, hcollapse, hexpand⟩ := expand_collapse hfound hpriority hvalid
  exact ⟨hfound, hpriority, hvalid, value, hcollapse, hexpand.trans (by decide)⟩

end StyleFold.BackgroundShorthand
