import StyleFold.Proofs.Converter
import StyleFold.Proofs.Declaration.Lookup
import StyleFold.Proofs.Shorthand.Font.Replay
import StyleFold.Proofs.Value.Spaced

/-!
The longhands of a font are those of the font that they make up. That font has the characters of the
first one, with narrow gaps between the slots.
-/
namespace StyleFold.FontShorthand
open Declaration Text Pattern

variable {n : Nat} {c m : Cursor} {v t : List Char} {new : List (Nat × List Char)} {f : Filling}
  {policy : DuplicatePolicy} {important : Bool} {found : FontSlot → Declaration}
  {ds : List Declaration}

def font : Pattern :=
  alt sizedFont (slotGroup .system)

theorem value_eq :
    value = seq startOfText (seq (many isGap) (seq font (seq (many isGap) endOfText))) :=
  rfl

theorem match?_value : match? n value true v =
    run n (many isGap) ⟨true, v, []⟩ fun c => run n font c (finish n) := by
  rw [match?, value_eq, run_seq, run, if_pos rfl]
  rfl

theorem isFloating_font : font.isFloating = true :=
  Bool.and_eq_true_iff.mpr ⟨regular_sizedFont.floating, isFloating_slotGroup .system⟩

theorem starts_font : Starts (fun c => !isGap c) font :=
  regular_sizedFont.starts.alt (starts_slotGroup .system)

/-- The font begins behind a gap at most. -/
theorem exists_behind_gap (h : match? n value true v = some m) : ∃ gap c, v = gap ++ c.rest ∧
    (∀ x ∈ gap, isGap x = true) ∧ c.groups = [] ∧ run n font c (finish n) = some m := by
  rw [match?_value] at h
  obtain ⟨c, hc, h⟩ := exists_of_run h
  obtain ⟨⟨gap, hv, hgap⟩, -⟩ := went_of_mem hc
  exact ⟨gap, c, hv, hgap, (went_of_mem hc).groups_eq rfl, h⟩

theorem follows_font (hn : c.rest.length ≤ n) (h : run n font c (finish n) = some m) :
    ∃ f : Filling, Follows font c m f.text f.caught := by
  obtain ⟨h, hfollows⟩ | ⟨h, hfollows⟩ :=
    follows_alt regular_sizedFont.floating regular_sizedFont.loose hn h
  · obtain ⟨style, variant, weight, size, height, family, hsized⟩ := follows_sizedFont hn h
    exact ⟨.sized style variant weight size height family, hfollows _ _ hsized⟩
  · obtain ⟨name, hname⟩ := follows_last h
    exact ⟨.system name, hfollows _ _ hname⟩

/-- A font without gaps at its ends is a value that is matched from its first character on. -/
theorem exists_match?_of_accepts (h : Accepts font t) : ∃ m first,
    match? t.length value true t = some m ∧
      run t.length font ⟨first, t, []⟩ (finish t.length) = some m := by
  obtain ⟨r, hr⟩ := @exists_run_of_accepts t.length font t true [] isFloating_font h le_rfl
  obtain ⟨m, hm⟩ : ∃ m, match? t.length value true t = some m := by
    rw [match?_value]
    exact exists_run mem_spanOutcomes_self (by rw [hr]; simp)
  obtain ⟨gap, ⟨first, rest, groups⟩, hv, hgap, hgroups, hrun⟩ := exists_behind_gap hm
  obtain ⟨x, r, hx, hhead⟩ := h.head starts_font
  obtain rfl : gap = [] := by
    cases gap with
    | nil => rfl
    | cons y gap =>
      rw [hx] at hv
      obtain ⟨rfl, -⟩ := List.cons.inj hv
      rw [hgap x List.mem_cons_self] at hhead
      contradiction
  dsimp only at hgroups
  obtain rfl : t = rest := hv
  subst hgroups
  exact ⟨m, first, hm, hrun⟩

/-- The text with narrow gaps is a value with the same groups. -/
theorem match?_of_replays (h : Replays font t new) :
    ∃ m, match? t.length value true t = some m ∧ texts m.groups = new := by
  obtain ⟨m, first, hm, hrun⟩ := exists_match?_of_accepts h.accepted
  refine ⟨m, hm, ?_⟩
  rw [h.caught _ _ _ _ le_rfl hrun]
  exact List.append_nil new

theorem find?_caughtBy (s t : FontSlot) (o : Option (List Char)) :
    (caughtBy t o).find? (fun g => g.1 == s.group) = if t = s then o.map fun w => (s.group, w)
      else none := by
  cases o with
  | none => cases t <;> cases s <;> rfl
  | some w => cases t <;> cases s <;> rfl

theorem group?_of_texts (h : texts m.groups = f.caught) (s : FontSlot) :
    m.group? s.group = f.get? s := by
  have hfind : m.group? s.group =
      ((texts m.groups).find? fun g => g.1 == s.group).map Prod.snd := by
    rw [texts, List.find?_map, Cursor.group?, Option.map_map]
    change _ = (m.groups.find? fun g => g.1 == s.group).map _
    cases m.groups.find? fun g => g.1 == s.group <;> rfl
  rw [hfind, h, Filling.caught]
  cases s <;> simp [FontSlot.all, find?_caughtBy, Option.map_map, Function.comp_def]

namespace Filling

def value (f : Filling) (s : FontSlot) : String :=
  match f.get? s with
  | some w => String.ofList w
  | none => initial

def declaration (f : Filling) (important : Bool) (s : FontSlot) : Declaration :=
  ⟨s.longhand, f.value s, important⟩

def declarations (f : Filling) (important : Bool) : List Declaration :=
  FontSlot.all.map (f.declaration important)

def IsPlain (f : Filling) : Prop :=
  ∀ s, ∀ w ∈ f.get? s, trim w = w ∧ sameWord w initial.toList = false

end Filling

theorem expand_of_match? {v : String} (hm : match? v.toList.length value true v.toList = some m) :
    Shorthand.expand ⟨.font, policy⟩ ⟨"font", v, important⟩ =
      .ok (FontSlot.all.map fun s => ⟨s.longhand, slotValue m s, important⟩) := by
  rw [Shorthand.expand_eq_ok rfl, Family.longhands, longhands, hm]
  dsimp only
  rw [List.map_map]
  refine congrArg Except.ok (List.map_congr_left fun s _ => ?_)
  have hname : lowercase s.longhand = s.longhand := by cases s <;> decide
  rw [Function.comp_apply, Declaration.of, hname]
  rfl

theorem mem_all (s : FontSlot) : s ∈ FontSlot.all := by
  cases s <;> decide

theorem find_declaration (policy : DuplicatePolicy) (f : Filling) (important : Bool)
    (s : FontSlot) : find policy s.longhand (f.declarations important) =
      .ok (some (f.declaration important s)) := by
  have hproperties : (f.declarations important).map Declaration.property =
      FontSlot.all.map FontSlot.longhand := List.map_map ..
  have hnodup : ((f.declarations important).map Declaration.property).Nodup := by
    rw [hproperties]
    decide
  exact find_of_mem hnodup (List.mem_map_of_mem (f := f.declaration important) (mem_all s))

theorem declared_declaration (f : Filling) (important : Bool) (s : FontSlot) :
    declared policy (f.declarations important) s = .ok (f.declaration important s) := by
  have hfind := find_declaration policy f important s
  cases s <;> simp only [declared, require, hfind] <;> rfl

theorem selected_eq_ok (h : ∀ s, declared policy ds s = .ok (found s)) (slots : List FontSlot) :
    selected policy ds slots = .ok (slots.map fun s => (s, found s)) := by
  induction slots with
  | nil => rfl
  | cons s slots ih =>
    rw [selected, h, ih]
    rfl

def given (found : FontSlot → Declaration) (s : FontSlot) : Option (List Char) :=
  if (found s).isInitial then none else some (found s).trimmedValue.toList

theorem given?_found (found : FontSlot → Declaration) (s : FontSlot) :
    given? (FontSlot.all.map fun s => (s, found s)) s = (given found s).map String.ofList := by
  have hfound : found? (FontSlot.all.map fun s => (s, found s)) s = some (found s) := by
    cases s <;> rfl
  rw [given?, hfound, given]
  dsimp only
  split
  · rfl
  · rw [Option.map_some, String.ofList_toList]

theorem given_declaration (hf : f.IsPlain) (s : FontSlot) :
    given (f.declaration important) s = f.get? s := by
  rw [given]
  cases hs : f.get? s with
  | none =>
    have hinitial : (f.declaration important s).isInitial = true := by
      have hvalue : f.value s = initial := by rw [Filling.value, hs]
      have hword : sameWord (trim initial.toList) initial.toList = true := by decide
      rw [isInitial, Filling.declaration, hvalue, hword]
    rw [if_pos hinitial]
  | some w =>
    obtain ⟨htrim, hword⟩ := hf s w hs
    have htrimmed : trim (f.declaration important s).value.toList = w := by
      rw [Filling.declaration, Filling.value, hs, String.toList_ofList, htrim]
    rw [isInitial, trimmedValue, htrimmed, hword, String.toList_ofList]
    rfl

theorem eq_initial_of_ofList {w : List Char} (h : String.ofList w = initial) :
    w = initial.toList := by
  rw [← h, String.toList_ofList]

theorem ne_initial_of_given {s : FontSlot} {w : List Char} (hw : w ∈ given found s) :
    w ≠ initial.toList := by
  rintro rfl
  rw [given] at hw
  split at hw
  · contradiction
  · rename_i hinitial
    have htrim : trim (found s).value.toList = initial.toList := by
      simpa [trimmedValue] using Option.some.inj hw
    rw [isInitial, htrim] at hinitial
    exact hinitial (by decide)

def trimmedDeclarations (found : FontSlot → Declaration) (important : Bool) : List Declaration :=
  FontSlot.all.map fun s => ⟨s.longhand, (given found s).elim initial String.ofList, important⟩

theorem declarations_eq (h : ∀ s, given found s = f.get? s) :
    f.declarations important = trimmedDeclarations found important := by
  refine List.map_congr_left fun s _ => ?_
  rw [Filling.declaration, Filling.value, h]
  cases f.get? s <;> rfl

theorem toList_spaced_lead (o : Option (List Char)) {ps : List String} (h : ps ≠ []) :
    (spaced ((o.map String.ofList).toList ++ ps)).toList = lead o (spaced ps).toList := by
  cases o with
  | none => rfl
  | some w =>
    rw [Option.map_some, Option.toList_some, List.singleton_append, Value.toList_spaced_cons _ h,
      String.toList_ofList]
    rfl

namespace Filling

def sizeWords : Filling → List String
  | sized _ _ _ size height _ => [String.ofList (size ++ slashed height)]
  | system _ => []

def words (f : Filling) : List String :=
  let given := fun s => ((f.get? s).map String.ofList).toList
  given .style ++ given .variant ++ given .weight ++ f.sizeWords ++ given .family ++ given .system

theorem words_ne_nil (f : Filling) : f.words ≠ [] := by
  cases f <;> simp [words, sizeWords, get?]

theorem toList_spaced_words (f : Filling) : (spaced f.words).toList = f.text := by
  cases f with
  | system name => exact String.toList_ofList
  | sized style variant weight size height family =>
    simp only [words, sizeWords, get?, List.append_assoc]
    rw [toList_spaced_lead _ (by simp), toList_spaced_lead _ (by simp), toList_spaced_lead _ (by simp)]
    simp [spaced, text]

end Filling

theorem sizeWords_found (h : ∀ s, given found s = f.get? s) :
    sizeWords (FontSlot.all.map fun s => (s, found s)) = .ok f.sizeWords := by
  rw [sizeWords, given?_found, given?_found, h, h]
  cases f with
  | system name => rfl
  | sized style variant weight size height family =>
    cases height with
    | none => simp [Filling.get?, Filling.sizeWords, slashed]
    | some height => simp [Filling.get?, Filling.sizeWords, slashed, String.append_assoc]

/-- What the declarations set next to each other, around the words for the size. -/
def parts (found : FontSlot → Declaration) (words : List String) : List String :=
  let given := fun s => ((given found s).map String.ofList).toList
  given .style ++ given .variant ++ given .weight ++ words ++ given .family ++ given .system

def composed (found : FontSlot → Declaration) (words : List String) : String :=
  if parts found words = [] then initial else spaced (parts found words)

theorem collapse_eq {words : List String} (hfound : ∀ s, declared policy ds s = .ok (found s))
    (hwords : sizeWords (FontSlot.all.map fun s => (s, found s)) = .ok words) :
    collapse policy ds = (fun important => ⟨property, composed found words, important⟩) <$>
      sharedPriority property (FontSlot.all.map found) := by
  have hname : lowercase property = property := by decide
  have hsnd : (FontSlot.all.map fun s => (s, found s)).map Prod.snd = FontSlot.all.map found := by
    rw [List.map_map]
    rfl
  rw [collapse, selected_eq_ok hfound]
  simp only [bind, Except.bind, hsnd, hwords, given?_found, Declaration.of, hname, withPriority]
  cases sharedPriority property (FontSlot.all.map found) with
  | error e => rfl
  | ok important =>
    refine congrArg Except.ok ?_
    dsimp only [composed]
    split
    · rename_i hparts
      have hnil : parts found words = [] := hparts
      rw [if_pos hnil]
    · rename_i hparts
      have hne : parts found words ≠ [] := hparts
      rw [if_neg hne]
      rfl

theorem composed_eq (h : ∀ s, given found s = f.get? s) :
    composed found f.sizeWords = String.ofList f.text := by
  have hparts : parts found f.sizeWords = f.words := by
    simp only [parts, h]
    rfl
  rw [composed, hparts, if_neg f.words_ne_nil, ← f.toList_spaced_words, String.ofList_toList]

theorem collapse_declarations (hf : f.IsPlain) : collapse policy (f.declarations important) =
    .ok ⟨property, String.ofList f.text, important⟩ := by
  have hshared : sharedPriority property (f.declarations important) = .ok important := by
    refine sharedPriority_eq_ok (fun d hd => ?_) (by simp [Filling.declarations, FontSlot.all])
      property
    obtain ⟨s, -, rfl⟩ := List.mem_map.mp hd
    rfl
  have hgiven (s : FontSlot) : given (f.declaration important) s = f.get? s :=
    given_declaration hf s
  rw [collapse_eq (declared_declaration f important) (sizeWords_found hgiven), composed_eq hgiven]
  exact congrArg _ hshared

/-- The texts of the slots are set one after the other, with other gaps than in the value. -/
theorem filter_text (hwide : Widened c.rest t) {gap : List Char}
    (hgap : ∀ x ∈ gap, isGap x = true) :
    (t.filter fun x => !isGap x) = (gap ++ c.rest).filter fun x => !isGap x := by
  obtain ⟨w, gap', hrest, hgap', hwiden⟩ := hwide
  rw [hrest, List.filter_append, List.filter_append, filter_eq_nil_of_gap hgap,
    filter_eq_nil_of_gap hgap', List.append_nil, hwiden.filter_eq]
  rfl

theorem expand_eq {v : String} (hm : match? v.toList.length value true v.toList = some m)
    (hf : ∀ s, m.group? s.group = f.get? s) :
    Shorthand.expand ⟨.font, policy⟩ ⟨"font", v, important⟩ = .ok (f.declarations important) := by
  rw [expand_of_match? hm]
  refine congrArg Except.ok (List.map_congr_left fun s _ => ?_)
  rw [slotValue, hf]
  rfl

/-- A group of the pattern matches the word `initial`. -/
def catchesInitial (v : String) : Bool :=
  match match? v.toList.length value true v.toList with
  | none => false
  | some m => FontSlot.all.any fun s => (m.group? s.group).any fun w => sameWord w initial.toList

theorem isPlain_of_match? {v : String} (hm : match? v.toList.length value true v.toList = some m)
    (hf : ∀ s, m.group? s.group = f.get? s) (h : catchesInitial v = false) : f.IsPlain := by
  intro s w hw
  have hgroup : m.group? s.group = some w := (hf s).trans hw
  rw [catchesInitial, hm] at h
  have hword := List.any_eq_false.mp h s (mem_all s)
  rw [hgroup, Option.any_some, Bool.not_eq_true] at hword
  exact ⟨trim_slot (language_of_group hm hgroup), hword⟩

/-- The longhands of a font make up a font with the same characters besides gaps and with the same
longhands, unless the word `initial` stands for one of them. -/
theorem exists_collapse_expand {d : Declaration} {ds : List Declaration}
    (hds : Shorthand.expand ⟨.font, policy⟩ d = .ok ds) (hne : ds ≠ [])
    (hinitial : catchesInitial d.value = false) :
    ∃ v, Shorthand.collapse ⟨.font, policy⟩ ds = .ok ⟨"font", v, d.important⟩ ∧
      (v.toList.filter fun x => !isGap x) = (d.value.toList.filter fun x => !isGap x) ∧
      Shorthand.expand ⟨.font, policy⟩ ⟨"font", v, d.important⟩ = .ok ds := by
  obtain ⟨name, v, important⟩ := d
  obtain rfl : name = "font" := Shorthand.property_of_expand hds
  cases hm : match? v.toList.length value true v.toList with
  | none =>
    have hnone : longhands v = [] := by rw [longhands, hm]
    rw [Shorthand.expand_eq_ok rfl, Family.longhands, hnone] at hds
    exact absurd (Except.ok.inj hds).symm hne
  | some m =>
    obtain ⟨gap, c, hv, hgap, hgroups, hrun⟩ := exists_behind_gap hm
    have hn : c.rest.length ≤ v.toList.length := by simp [hv]
    obtain ⟨f, hfollows⟩ := follows_font hn hrun
    have htexts : texts m.groups = f.caught := by
      rw [hfollows.groups, hgroups]
      exact List.append_nil _
    have hf := group?_of_texts htexts
    rw [expand_eq hm hf] at hds
    obtain rfl := Except.ok.inj hds
    obtain ⟨m', hm', htexts'⟩ := match?_of_replays hfollows.replays
    refine ⟨String.ofList f.text, collapse_declarations (isPlain_of_match? hm hf hinitial), ?_,
      expand_eq (m := m') ?_ (group?_of_texts htexts')⟩
    · rw [String.toList_ofList, hv]
      exact filter_text hfollows.wide hgap
    · rw [String.toList_ofList]
      exact hm'

/-- Gaps within the family stay, all others become as narrow as they can be. -/
theorem exists_collapse_expand_gaps :
    Shorthand.expand ⟨.font, .reject⟩
        ⟨"font", "\tItalic  12px / 1.5\n\"a  b\" , Open  Sans ", true⟩ = .ok [
      ⟨"font-style", "Italic", true⟩, ⟨"font-variant", "initial", true⟩,
      ⟨"font-weight", "initial", true⟩, ⟨"font-size", "12px", true⟩, ⟨"font-height", "1.5", true⟩,
      ⟨"font-family", "\"a  b\" , Open  Sans", true⟩, ⟨"font-values", "initial", true⟩] ∧
    catchesInitial "\tItalic  12px / 1.5\n\"a  b\" , Open  Sans " = false ∧
    ∃ v, Shorthand.collapse ⟨.font, .reject⟩ [
        ⟨"font-style", "Italic", true⟩, ⟨"font-variant", "initial", true⟩,
        ⟨"font-weight", "initial", true⟩, ⟨"font-size", "12px", true⟩, ⟨"font-height", "1.5", true⟩,
        ⟨"font-family", "\"a  b\" , Open  Sans", true⟩, ⟨"font-values", "initial", true⟩] =
          .ok ⟨"font", v, true⟩ ∧
      (v.toList.filter fun x => !isGap x) = "Italic12px/1.5\"ab\",OpenSans".toList ∧
      Shorthand.expand ⟨.font, .reject⟩ ⟨"font", v, true⟩ = .ok [
        ⟨"font-style", "Italic", true⟩, ⟨"font-variant", "initial", true⟩,
        ⟨"font-weight", "initial", true⟩, ⟨"font-size", "12px", true⟩, ⟨"font-height", "1.5", true⟩,
        ⟨"font-family", "\"a  b\" , Open  Sans", true⟩, ⟨"font-values", "initial", true⟩] := by
  have hds : Shorthand.expand ⟨.font, .reject⟩
      ⟨"font", "\tItalic  12px / 1.5\n\"a  b\" , Open  Sans ", true⟩ = .ok [
    ⟨"font-style", "Italic", true⟩, ⟨"font-variant", "initial", true⟩,
    ⟨"font-weight", "initial", true⟩, ⟨"font-size", "12px", true⟩, ⟨"font-height", "1.5", true⟩,
    ⟨"font-family", "\"a  b\" , Open  Sans", true⟩, ⟨"font-values", "initial", true⟩] := by
    decide +kernel
  have hinitial : catchesInitial "\tItalic  12px / 1.5\n\"a  b\" , Open  Sans " = false := by
    decide +kernel
  obtain ⟨v, hcollapse, htext, hexpand⟩ := exists_collapse_expand hds (List.cons_ne_nil _ _) hinitial
  exact ⟨hds, hinitial, v, hcollapse, htext.trans (by decide), hexpand⟩

end StyleFold.FontShorthand
