import StyleFold.Proofs.Shorthand.Background.Views

/-!
The segments that a background is written in, and the tokens that each of them adds to the texts in
which the parts are looked up.
-/
namespace StyleFold.BackgroundShorthand
open Text Pattern

variable {k l : Part} {c : Char} {s w : List Char} {words sizes : List (List Char)}

def Part.limit : Part → Nat
  | image | attachment | color => 1
  | size | tiling | box => 2
  | position => 4

def Spells : Part → List Char → Prop
  | .image => IsImage
  | .color => IsColor
  | k => IsWord k

/-- Words with gaps between them, and behind a slash those of a size. -/
inductive Written (words : List (List Char)) : (sizes : List (List Char)) → List Char → Prop
  | alone {s : List Char} (h : Joined words s) : Written words [] s
  | sized {sizes : List (List Char)} {s t gap gap' : List Char} (hs : Joined words s)
      (ht : Joined sizes t) (hne : sizes ≠ []) (hgap : ∀ c ∈ gap, isGap c = true)
      (hgap' : ∀ c ∈ gap', isGap c = true) :
      Written words sizes (s ++ (gap ++ '/' :: (gap' ++ t)))

namespace Written

theorem joined (h : Written words [] s) : Joined words s := by
  cases h with
  | alone h => exact h
  | sized _ _ hne => exact absurd rfl hne

theorem exists_of_mem (h : Written words sizes s) (hc : c ∈ s) :
    isGap c = true ∨ c = '/' ∧ sizes ≠ [] ∨ ∃ w ∈ words ++ sizes, c ∈ w := by
  cases h with
  | alone h => exact (h.exists_of_mem hc).imp_right fun h => .inr (by simpa using h)
  | sized hs ht hne hgap hgap' =>
    simp only [List.mem_append, List.mem_cons] at hc ⊢
    obtain hc | hc | rfl | hc | hc := hc
    · exact (hs.exists_of_mem hc).imp_right fun ⟨w, hw, hc⟩ => .inr ⟨w, .inl hw, hc⟩
    · exact .inl (hgap c hc)
    · exact .inr (.inl ⟨rfl, hne⟩)
    · exact .inl (hgap' c hc)
    · exact (ht.exists_of_mem hc).imp_right fun ⟨w, hw, hc⟩ => .inr ⟨w, .inr hw, hc⟩

theorem exists_holding {u : List Char} (h : Written words sizes s) (hu : ∀ c ∈ u, isStop c = false)
    (hne : u ≠ []) (hfound : u <:+: lower s) : ∃ w ∈ words ++ sizes, u <:+: lower w := by
  cases h with
  | alone h =>
    rw [List.append_nil]
    exact h.exists_holding hu hne hfound
  | @sized _ s t gap gap' hs ht _ hgap hgap' =>
    have hstops : ∀ c ∈ gap ++ '/' :: gap', isStop c = true := by
      refine List.forall_mem_append.mpr ⟨fun c hc => isStop_of_isGap (hgap c hc), ?_⟩
      exact List.forall_mem_cons.mpr ⟨by decide, fun c hc => isStop_of_isGap (hgap' c hc)⟩
    have htext : s ++ (gap ++ '/' :: (gap' ++ t)) = s ++ (gap ++ '/' :: gap' ++ t) := by simp
    rw [htext] at hfound
    obtain h | h := infix_of_stops hu hne hstops (by simp) hfound
    · obtain ⟨w, hw, h⟩ := hs.exists_holding hu hne h
      exact ⟨w, List.mem_append_left _ hw, h⟩
    · obtain ⟨w, hw, h⟩ := ht.exists_holding hu hne h
      exact ⟨w, List.mem_append_right _ hw, h⟩

theorem ne_nil (h : Written words sizes s) (hne : words ≠ []) (hwords : ∀ w ∈ words, w ≠ []) :
    s ≠ [] := by
  cases h with
  | alone h => exact h.ne_nil hne hwords
  | sized => simp

end Written

/-- The words of a part and the text they are written in. A position can bring a size with it. -/
structure Segment where
  part : Part
  words : List (List Char)
  sizes : List (List Char)
  text : List Char
  part_ne : part ≠ .size
  filled : words ≠ []
  bounded : words.length ≤ part.limit
  spelled : ∀ w ∈ words, Spells part w
  placed : sizes ≠ [] → part = .position
  sizes_bounded : sizes.length ≤ Part.size.limit
  sizes_spelled : ∀ w ∈ sizes, IsWord .size w
  written : Written words sizes text

theorem Spells.cases (h : Spells k w) : IsWord k w ∨ k.limit = 1 ∧ k ≠ .position ∧
    ((k = .image ∧ ∃ arguments, Shallow arguments ∧ IsCall .image arguments w) ∨
      k = .color ∧ ∃ arguments, (∀ c ∈ arguments, isPlain c = true) ∧
        ¬"none".toList <:+: lower arguments ∧ IsCall .color arguments w) := by
  cases k with
  | image => exact h.imp_right fun h => ⟨rfl, by decide, .inl ⟨rfl, h⟩⟩
  | color => exact h.imp_right fun h => ⟨rfl, by decide, .inr ⟨rfl, h⟩⟩
  | _ => exact .inl h

theorem unmeasured_or (hk : k ≠ .size) (hl : l ≠ .size) (hne : k ≠ l) :
    k.isMeasured = false ∨ l.isMeasured = false := by
  cases k <;> cases l <;> first | contradiction | decide

theorem IsCall.mem_open {arguments : List Char} (h : IsCall k arguments w) : '(' ∈ w := by
  obtain ⟨name, -, rfl⟩ := h
  simp

theorem adds_words (h : ∀ w ∈ words, IsWord k w) (hne : words ≠ []) (hs : Joined words s) :
    Adds k.pattern s words := by
  have hwords : List.Forall₂ (Adds k.pattern) words (words.map fun w => [w]) := by
    rw [List.forall₂_map_right_iff, List.forall₂_same]
    exact fun w hw => (h w hw).adds
  have hadds := Adds.joined (firm_pattern k) hwords hs hne
  rwa [← List.flatMap_def, List.flatMap_singleton'] at hadds

theorem not_mem_words (h : ∀ w ∈ words, IsWord k w) (hs : Joined words s) (hgap : isGap c = false)
    (hc : isWordy c = false) : c ∉ s := by
  intro hm
  obtain hm | ⟨w, hw, hm⟩ := hs.exists_of_mem hm
  · rw [hm] at hgap
    contradiction
  · rw [(h w hw).wordy c hm] at hc
    contradiction

namespace Segment

variable {σ : Segment}

def given (σ : Segment) (l : Part) : List (List Char) :=
  if l = .size then σ.sizes else if σ.part = l then σ.words else []

theorem given_part (σ : Segment) : σ.given σ.part = σ.words := by
  rw [given, if_neg σ.part_ne, if_pos rfl]

theorem given_of_ne (hl : l ≠ .size) (hne : σ.part ≠ l) : σ.given l = [] := by
  rw [given, if_neg hl, if_neg hne]

theorem exists_isWord (h : ∀ w ∈ σ.words, IsWord σ.part w) :
    ∀ w ∈ σ.words ++ σ.sizes, ∃ k, IsWord k w ∧ (k = σ.part ∨ k = .size) := by
  intro w hw
  obtain hw | hw := List.mem_append.mp hw
  · exact ⟨σ.part, h w hw, .inl rfl⟩
  · exact ⟨.size, σ.sizes_spelled w hw, .inr rfl⟩

theorem not_mem_open (h : ∀ w ∈ σ.words, IsWord σ.part w) : '(' ∉ σ.text := by
  intro hm
  obtain hgap | ⟨hslash, -⟩ | ⟨w, hw, hm⟩ := σ.written.exists_of_mem hm
  · exact absurd hgap (by decide)
  · exact absurd hslash (by decide)
  · obtain ⟨k, hk, -⟩ := exists_isWord h w hw
    exact absurd (hk.wordy '(' hm) (by decide)

theorem not_mem_slash (h : ∀ w ∈ σ.words, IsWord σ.part w) (hsizes : σ.sizes = []) :
    '/' ∉ σ.text := by
  intro hm
  obtain hgap | ⟨-, hne⟩ | ⟨w, hw, hm⟩ := σ.written.exists_of_mem hm
  · exact absurd hgap (by decide)
  · exact hne hsizes
  · obtain ⟨k, hk, -⟩ := exists_isWord h w hw
    exact absurd (hk.wordy '/' hm) (by decide)

theorem no_none (h : ∀ w ∈ σ.words, IsWord σ.part w) (hpart : σ.part ≠ .image) :
    ¬"none".toList <:+: lower σ.text := by
  have hsolid : ∀ c ∈ "none".toList, isStop c = false := by
    have hall : ("none".toList.all fun c => !isStop c) = true := by decide
    simpa using List.all_eq_true.mp hall
  intro hm
  obtain ⟨w, hw, hm⟩ := σ.written.exists_holding hsolid (by decide) hm
  obtain ⟨k, hk, rfl | rfl⟩ := exists_isWord h w hw
  · exact hk.no_none hpart hm
  · exact hk.no_none (by decide) hm

theorem joined (hsizes : σ.sizes = []) : Joined σ.words σ.text := by
  have hwritten := σ.written
  rw [hsizes] at hwritten
  exact hwritten.joined

theorem exists_sized (h : σ.sizes ≠ []) : ∃ s t gap gap', Joined σ.words s ∧ Joined σ.sizes t ∧
    (∀ c ∈ gap, isGap c = true) ∧ (∀ c ∈ gap', isGap c = true) ∧
      σ.text = s ++ gap ++ '/' :: (gap' ++ t) := by
  have hwritten := σ.written
  generalize σ.sizes = sizes at h hwritten
  generalize σ.text = text at hwritten
  cases hwritten with
  | alone => exact absurd rfl h
  | @sized _ s t gap gap' hs ht _ hgap hgap' =>
    exact ⟨s, t, gap, gap', hs, ht, hgap, hgap', (List.append_assoc ..).symm⟩

theorem sizes_eq_nil (h : σ.part ≠ .position) : σ.sizes = [] :=
  by_contra fun hne => h (σ.placed hne)

theorem words_eq (h : σ.part.limit = 1) (hne : σ.part ≠ .position) : σ.words = [σ.text] := by
  obtain ⟨w, hw⟩ : ∃ w, σ.words = [w] := by
    rw [← List.length_eq_one_iff]
    exact le_antisymm (h ▸ σ.bounded) (List.length_pos_iff.mpr σ.filled)
  have hjoined := joined (sizes_eq_nil hne)
  rw [hw] at hjoined ⊢
  rw [hjoined.eq_of_single]

theorem cases (σ : Segment) : (∀ w ∈ σ.words, IsWord σ.part w) ∨
    (σ.part = .image ∧ ∃ arguments, Shallow arguments ∧ IsCall .image arguments σ.text) ∨
      σ.part = .color ∧ ∃ arguments, (∀ c ∈ arguments, isPlain c = true) ∧
        ¬"none".toList <:+: lower arguments ∧ IsCall .color arguments σ.text := by
  refine or_iff_not_imp_left.mpr fun h => ?_
  obtain ⟨w, hw, hnot⟩ : ∃ w ∈ σ.words, ¬IsWord σ.part w := by simpa using h
  obtain hword | ⟨hlimit, hne, hcall⟩ := (σ.spelled w hw).cases
  · exact absurd hword hnot
  · rw [words_eq hlimit hne] at hw
    rwa [List.mem_singleton.mp hw] at hcall

theorem skips (h : ∀ w ∈ σ.words, IsWord σ.part w) (hne : σ.part ≠ l)
    (hmeasured : σ.part.isMeasured = false ∨ l.isMeasured = false) : Skips l.pattern σ.text := by
  have hp := firm_pattern l
  cases σ with
  | mk part words sizes text _ filled _ _ placed _ hsizes hwritten =>
    have hskips {s : List Char} (hs : Joined words s) : Skips l.pattern s :=
      .joined hp (fun w hw => (h w hw).skips hne hmeasured) hs filled
    cases hwritten with
    | alone hs => exact hskips hs
    | sized hs ht hfilled hgap hgap' =>
      obtain rfl : part = .position := placed hfilled
      have hunmeasured : l.isMeasured = false := hmeasured.resolve_left fun h => Bool.noConfusion h
      have hsize : .size ≠ l := by
        rintro rfl
        contradiction
      have hlast : Skips l.pattern _ :=
        .joined hp (fun w hw => (hsizes w hw).skips hsize (.inr hunmeasured)) ht hfilled
      exact (hskips hs).slash hp hlast hgap hgap'

theorem adds_given (h : ∀ w ∈ σ.words, IsWord σ.part w) (hl : l ≠ .size)
    (hsizes : l = .position → σ.sizes = []) : Adds l.pattern σ.text (σ.given l) := by
  by_cases hpart : σ.part = l
  · subst hpart
    rw [given_part]
    refine adds_words h σ.filled (joined ?_)
    by_cases hposition : σ.part = .position
    · exact hsizes hposition
    · exact sizes_eq_nil hposition
  · rw [given_of_ne hl hpart]
    exact (skips h hpart (unmeasured_or σ.part_ne hl hpart)).adds

theorem adds_image (σ : Segment) : Adds image σ.text (σ.given .image) := by
  obtain h | ⟨hpart, arguments, hshallow, hcall⟩ | ⟨hpart, hcolor⟩ := σ.cases
  · exact adds_given (l := .image) h (by decide) nofun
  · have hgiven : σ.given .image = [σ.text] := by
      rw [← hpart, given_part, words_eq (by rw [hpart]; rfl) (by rw [hpart]; decide)]
    rw [hgiven]
    exact .token (firm_pattern .image) fun _ => takes_image (.inr ⟨arguments, hshallow, hcall⟩)
  · rw [given_of_ne (by decide) (by rw [hpart]; decide)]
    exact (IsColor.skips_image (.inr hcolor)).adds

/-- What stands for the segment in the value without its image. -/
def unpictured (σ : Segment) : List Char :=
  if σ.part = .image then [' '] else σ.text

theorem adds_color (σ : Segment) : Adds color σ.unpictured (σ.given .color) := by
  by_cases hpart : σ.part = .image
  · rw [unpictured, if_pos hpart, given_of_ne (by decide) (by rw [hpart]; decide)]
    exact (Skips.space (firm_pattern .color)).adds
  · rw [unpictured, if_neg hpart]
    obtain h | ⟨hpart', -⟩ | ⟨hpart, hcolor⟩ := σ.cases
    · exact adds_given (l := .color) h (by decide) nofun
    · exact absurd hpart' hpart
    · have hgiven : σ.given .color = [σ.text] := by
        rw [← hpart, given_part, words_eq (by rw [hpart]; rfl) (by rw [hpart]; decide)]
      rw [hgiven]
      exact .token (firm_pattern .color) fun _ => takes_color (.inr hcolor)

theorem text_ne_nil (σ : Segment) : σ.text ≠ [] := by
  obtain h | ⟨-, arguments, -, hcall⟩ | ⟨-, arguments, -, -, hcall⟩ := σ.cases
  · exact σ.written.ne_nil σ.filled fun w hw => (h w hw).ne_nil
  · exact List.ne_nil_of_mem hcall.mem_open
  · exact List.ne_nil_of_mem hcall.mem_open

theorem masks (σ : Segment) : Masks σ.text (veil σ.text) := by
  obtain h | ⟨-, arguments, hshallow, hcall⟩ | ⟨-, arguments, hplain, -, hcall⟩ := σ.cases
  · rw [veil, if_neg (not_mem_open h)]
    exact .plain (not_mem_open h) σ.text_ne_nil
  · rw [veil, if_pos hcall.mem_open]
    exact .call hshallow hcall
  · rw [veil, if_pos hcall.mem_open]
    exact .call (shallow_of_plain hplain) hcall

/-- Only the segment of the image holds an image. -/
theorem misses {picture : List Char} (h : IsImage picture) (hpart : σ.part ≠ .image) :
    Misses picture σ.text := by
  obtain hwords | ⟨hpart', -⟩ | ⟨-, arguments, hplain, hnone, hcall⟩ := σ.cases
  · exact h.misses (not_mem_open hwords) (no_none hwords hpart)
  · exact absurd hpart' hpart
  · exact h.misses_call hplain hnone hcall

theorem veil_cases (σ : Segment) : ((∀ w ∈ σ.words, IsWord σ.part w) ∧ veil σ.text = σ.text) ∨
    (σ.part = .image ∨ σ.part = .color) ∧ veil σ.text = [' '] := by
  obtain h | ⟨hpart, _, _, hcall⟩ | ⟨hpart, _, _, _, hcall⟩ := σ.cases
  · exact .inl ⟨h, if_neg (not_mem_open h)⟩
  · exact .inr ⟨.inl hpart, if_pos hcall.mem_open⟩
  · exact .inr ⟨.inr hpart, if_pos hcall.mem_open⟩

theorem not_mem_veil (hsizes : σ.sizes = []) : '/' ∉ veil σ.text := by
  obtain ⟨h, hveil⟩ | ⟨-, hveil⟩ := σ.veil_cases
  · rw [hveil]
    exact not_mem_slash h hsizes
  · rw [hveil]
    decide

theorem skips_veil (hne : σ.part ≠ l)
    (hmeasured : σ.part.isMeasured = false ∨ l.isMeasured = false) :
    Skips l.pattern (veil σ.text) := by
  obtain ⟨h, hveil⟩ | ⟨-, hveil⟩ := σ.veil_cases
  · rw [hveil]
    exact skips h hne hmeasured
  · rw [hveil]
    exact .space (firm_pattern l)

theorem adds_veil (himage : l ≠ .image) (hcolor : l ≠ .color) (hl : l ≠ .size)
    (hsizes : l = .position → σ.sizes = []) : Adds l.pattern (veil σ.text) (σ.given l) := by
  obtain ⟨h, hveil⟩ | ⟨hpart, hveil⟩ := σ.veil_cases
  · rw [hveil]
    exact adds_given h hl hsizes
  · have hne : σ.part ≠ l := by
      rintro rfl
      exact hpart.elim himage hcolor
    rw [hveil, given_of_ne hl hne]
    exact (Skips.space (firm_pattern l)).adds

end Segment
end StyleFold.BackgroundShorthand
