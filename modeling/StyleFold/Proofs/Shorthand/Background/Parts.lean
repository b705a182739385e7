import StyleFold.Proofs.Shorthand.Background.Scan
import StyleFold.Proofs.Shorthand.Background

/-!
The words of each part of a background. The pattern of a part takes its own words and passes over the
words of all others.
-/
namespace StyleFold.BackgroundShorthand
open Text Pattern

variable {n : Nat} {p : Pattern} {c : Char} {s t u v w name : List Char} {f g : Char → Bool}

/-- What the words of a background can be for. Origin and clip have the same words. -/
inductive Part where
  | image | position | size | tiling | attachment | box | color
deriving DecidableEq

namespace Part

def words : Part → List String
  | image => ["none"]
  | position => Keyword.words PositionWord
  | size => Keyword.words SizeWord
  | tiling => Keyword.words RepeatStyle
  | attachment => Keyword.words Attachment
  | box => Keyword.words BoxEdge
  | color => namedColors ++ specialColors

def pattern : Part → Pattern
  | image => BackgroundShorthand.image
  | position => BackgroundShorthand.position
  | size => BackgroundShorthand.size
  | tiling => oneOf (Keyword.words RepeatStyle)
  | attachment => oneOf (Keyword.words Attachment)
  | box => oneOf (Keyword.words BoxEdge)
  | color => BackgroundShorthand.color

def earlier (k : Part) : List Part :=
  [image, position, size, tiling, attachment, box, color].takeWhile (· ≠ k)

def functions : Part → List String
  | image => "url" :: ["", "repeating-"].flatMap fun repeating =>
      ["linear", "radial", "conic"].map fun shape => repeating ++ (shape ++ "-gradient")
  | color => ["rgb", "hsl"].flatMap fun model => [model, model ++ "a"]
  | _ => []

def isMeasured : Part → Bool
  | position | size => true
  | _ => false

end Part

variable {k l : Part}

def IsHex (w : List Char) : Prop :=
  ∃ ds, w = '#' :: ds ∧ (∀ d ∈ ds, isHexDigit d = true) ∧ (ds.length = 6 ∨ ds.length = 3)

inductive IsWord : Part → List Char → Prop
  | keyword {k : Part} {w : List Char} (h : Keyword.isWordOf k.words w = true) : IsWord k w
  | measure {k : Part} {w : List Char} (hk : k.isMeasured = true) (h : IsMeasure w) : IsWord k w
  | hex {w : List Char} (h : IsHex w) : IsWord .color w

def IsCall (k : Part) (arguments w : List Char) : Prop :=
  ∃ name, Keyword.isWordOf k.functions name = true ∧ w = name ++ '(' :: (arguments ++ [')'])

def IsImage (w : List Char) : Prop :=
  IsWord .image w ∨ ∃ arguments, Shallow arguments ∧ IsCall .image arguments w

def IsColor (w : List Char) : Prop :=
  IsWord .color w ∨ ∃ arguments, (∀ c ∈ arguments, isPlain c = true) ∧
    ¬"none".toList <:+: lower arguments ∧ IsCall .color arguments w

def isWordy (c : Char) : Bool :=
  isLetter c || isDigit c || ['-', '+', '.', '%', '#'].contains c

theorem isWordy_of_toLower (h : isWordy c.toLower = true) : isWordy c = true := by
  obtain hc | hc := isLetter_or_toLower_eq c
  · simp [isWordy, hc]
  · rwa [hc] at h

theorem isWordy_of_alphanumeric (h : (isLetter c || isDigit c) = true) : isWordy c = true := by
  rw [isWordy, h, Bool.true_or]

theorem not_isBlank_of_isWordy (h : isWordy c = true) : isBlank c = false := by
  simp only [isWordy, Bool.or_eq_true (_ || _), List.contains_iff_mem, List.mem_cons,
    List.not_mem_nil, or_false] at h
  obtain h | rfl | rfl | rfl | rfl | rfl := h
  · exact Value.not_isBlank_of_isTame (isTame_of_alphanumeric h)
  all_goals decide

theorem not_isStop_of_isWordy (h : isWordy c = true) : isStop c = false := by
  have hnot := not_isStop_of_accepts (f := isWordy) (by decide) h
  simpa using hnot

theorem not_isGap_of_isWordy (h : isWordy c = true) : isGap c = false :=
  not_isGap_of_not_isStop (not_isStop_of_isWordy h)

theorem endsToken_of_isWordy (h : isWordy c = true) (s : List Char) : endsToken (c :: s) = false := by
  have hslash : c ≠ '/' := by
    rintro rfl
    exact absurd h (by decide)
  simp [endsToken, not_isBlank_of_isWordy h, hslash]

/-- A word of the part in lowercase letters. -/
def isSound (k : Part) (w : List Char) : Bool :=
  w.all isWordy && w.head?.any isLetter &&
    (k.earlier.all fun l => l.words.all fun x => lower x.toList != w) &&
      ((k = .image || !decide ("none".toList <:+: w)) && w != Declaration.initial.toList)

/-- Words begin with a letter, and no word is for two parts. Only for the image they hold `none`, and
none of them stands for no value. -/
theorem isSound_words (k : Part) : (k.words.all fun x => isSound k (lower x.toList)) = true := by
  cases k <;> decide +kernel

theorem isSound_of_keyword (h : Keyword.isWordOf k.words w = true) : isSound k (lower w) = true := by
  obtain ⟨x, hx, hlower⟩ := isWordOf_iff.mp h
  rw [hlower]
  exact List.all_eq_true.mp (isSound_words k) x hx

theorem isWordy_of_isSound (h : isSound k w = true) : ∀ c ∈ w, isWordy c = true := by
  simp only [isSound, Bool.and_eq_true] at h
  exact List.all_eq_true.mp h.1.1.1

theorem isWordy_of_lower (h : ∀ c ∈ lower w, isWordy c = true) : ∀ c ∈ w, isWordy c = true :=
  fun _ hc => isWordy_of_toLower (h _ (List.mem_map_of_mem hc))

theorem isWordy_of_isMeasure (h : IsMeasure w) : ∀ c ∈ w, isWordy c = true := by
  obtain ⟨hsign, hnumber, hunit⟩ := h
  have hdigits {ds : List Char} (hds : ∀ d ∈ ds, isDigit d = true) : ∀ c ∈ ds, isWordy c = true :=
    fun c hc => isWordy_of_alphanumeric (by rw [hds c hc, Bool.or_true])
  refine List.forall_mem_append.mpr ⟨?_, List.forall_mem_append.mpr ⟨?_, ?_⟩⟩
  · obtain rfl | rfl | rfl := hsign
    · simp
    all_goals exact List.forall_mem_singleton.mpr (by decide)
  · cases hnumber with
    | whole hne hds => exact hdigits hds
    | mixed hne hds hes =>
      exact List.forall_mem_append.mpr ⟨hdigits hds,
        List.forall_mem_cons.mpr ⟨by decide, hdigits hes⟩⟩
    | fraction hne hes => exact List.forall_mem_cons.mpr ⟨by decide, hdigits hes⟩
  · obtain rfl | hunit := hunit
    · simp
    · obtain ⟨x, hx, hlower⟩ := isWordOf_iff.mp hunit
      have hunits : ((lengthUnits ++ ["%"]).all fun x => (lower x.toList).all isWordy) = true := by
        decide +kernel
      refine isWordy_of_lower ?_
      rw [hlower]
      exact List.all_eq_true.mp (List.all_eq_true.mp hunits x hx)

theorem IsWord.wordy (h : IsWord k w) : ∀ c ∈ w, isWordy c = true := by
  cases h with
  | keyword h => exact isWordy_of_lower (isWordy_of_isSound (isSound_of_keyword h))
  | measure _ h => exact isWordy_of_isMeasure h
  | hex h =>
    obtain ⟨ds, rfl, hds, -⟩ := h
    exact List.forall_mem_cons.mpr ⟨by decide, fun d hd =>
      isWordy_of_alphanumeric (isLetter_or_isDigit (hds d hd))⟩

/-- The kinds of characters with which words begin. -/
def headClass (c : Char) : Nat :=
  if isLetter c then 0 else if c == '#' then 1 else 2

theorem headClass_of_keyword (h : Keyword.isWordOf k.words w = true) :
    ∃ c r, w = c :: r ∧ headClass c = 0 := by
  have hsound := isSound_of_keyword h
  simp only [isSound, Bool.and_eq_true] at hsound
  have hfirst := hsound.1.1.2
  cases w with
  | nil => contradiction
  | cons c r =>
    refine ⟨c, r, rfl, if_pos ?_⟩
    obtain hc | hc := isLetter_or_toLower_eq c
    · exact hc
    · rw [← hc]
      exact hfirst

theorem headClass_of_isMeasure (h : IsMeasure w) : ∃ c r, w = c :: r ∧ headClass c = 2 := by
  obtain ⟨hsign, hnumber, -⟩ := h
  obtain rfl | rfl | rfl := hsign
  · obtain ⟨c, r, rfl, hc⟩ := decimal_head hnumber
    refine ⟨c, _, rfl, ?_⟩
    simp only [continuesNumber, Bool.or_eq_true, beq_iff_eq] at hc
    obtain hc | rfl := hc
    · have hletter : isLetter c = false := by
        rw [← Bool.not_eq_true]
        intro hl
        have := Token.not_isDigit_of_isNameStart (c := c) (by simp [Token.isNameStart, hl])
        rw [hc] at this
        contradiction
      have hsign : c ≠ '#' := by
        rintro rfl
        exact absurd hc (by decide)
      simp [headClass, hletter, hsign]
    · rfl
  · exact ⟨'-', _, rfl, rfl⟩
  · exact ⟨'+', _, rfl, rfl⟩

theorem mem_earlier (hne : k ≠ l) : k ∈ l.earlier ∨ l ∈ k.earlier := by
  cases k <;> cases l <;> first | exact absurd rfl hne | decide

theorem keyword_disjoint (h : Keyword.isWordOf k.words w = true)
    (h' : Keyword.isWordOf l.words w = true) : k = l := by
  have hearlier {k l : Part} (h : Keyword.isWordOf k.words w = true)
      (h' : Keyword.isWordOf l.words w = true) : k ∉ l.earlier := by
    intro hk
    have hsound := isSound_of_keyword h'
    simp only [isSound, Bool.and_eq_true] at hsound
    obtain ⟨x, hx, hlower⟩ := isWordOf_iff.mp h
    have hdiffer := List.all_eq_true.mp (List.all_eq_true.mp hsound.1.2 k hk) x hx
    simp [hlower] at hdiffer
  by_contra hne
  exact (mem_earlier hne).elim (hearlier h h') (hearlier h' h)

theorem not_mem_lower_of_digits {ds : List Char} (hds : ∀ d ∈ ds, isDigit d = true) :
    'o' ∉ lower ds := by
  intro hm
  obtain ⟨d, hd, hlower⟩ := List.mem_map.mp hm
  rw [toLower_of_isDigit (hds d hd)] at hlower
  rw [hlower] at hd
  exact absurd (hds 'o' hd) (by decide)

/-- No unit has the second letter of `none`, so no measure has. -/
theorem not_mem_lower_of_isMeasure (h : IsMeasure w) : 'o' ∉ lower w := by
  obtain ⟨hsign, hnumber, hunit⟩ := h
  rw [lower_append, lower_append, List.mem_append, List.mem_append, not_or, not_or]
  refine ⟨?_, ?_, ?_⟩
  · obtain rfl | rfl | rfl := hsign <;> decide
  · cases hnumber with
    | whole _ hds => exact not_mem_lower_of_digits hds
    | mixed _ hds hes =>
      rw [lower_append, List.mem_append, not_or]
      exact ⟨not_mem_lower_of_digits hds,
        List.not_mem_cons_of_ne_of_not_mem (by decide) (not_mem_lower_of_digits hes)⟩
    | fraction _ hes =>
      exact List.not_mem_cons_of_ne_of_not_mem (by decide) (not_mem_lower_of_digits hes)
  · obtain rfl | hunit := hunit
    · simp [lower]
    · obtain ⟨x, hx, hlower⟩ := isWordOf_iff.mp hunit
      have hunits : ∀ x ∈ lengthUnits ++ ["%"], 'o' ∉ lower x.toList := by decide +kernel
      rw [hlower]
      exact hunits x hx

theorem not_mem_lower_of_isHex (h : IsHex w) : 'o' ∉ lower w := by
  obtain ⟨ds, rfl, hds, -⟩ := h
  have hdigit {d : Char} : (isLetter d || isDigit d) = true →
      isHexDigit d = true → d.toLower ≠ 'o' :=
    forall_alphanumeric (q := fun d => isHexDigit d = true → d.toLower ≠ 'o') (by decide +kernel)
  refine List.not_mem_cons_of_ne_of_not_mem (by decide) fun hm => ?_
  obtain ⟨d, hd, hlower⟩ := List.mem_map.mp hm
  exact hdigit (isLetter_or_isDigit (hds d hd)) (hds d hd) hlower

theorem IsWord.no_none (h : IsWord k w) (hk : k ≠ .image) : ¬"none".toList <:+: lower w := by
  have hletter (ho : 'o' ∉ lower w) : ¬"none".toList <:+: lower w := fun hm =>
    ho (hm.subset (by decide))
  cases h with
  | keyword h =>
    have hsound := isSound_of_keyword h
    simp only [isSound, Bool.and_eq_true] at hsound
    simpa [hk] using hsound.2.1
  | measure _ h => exact hletter (not_mem_lower_of_isMeasure h)
  | hex h => exact hletter (not_mem_lower_of_isHex h)

theorem headClass_of_isHex (h : IsHex w) : ∃ c r, w = c :: r ∧ headClass c = 1 := by
  obtain ⟨ds, rfl, -⟩ := h
  exact ⟨'#', ds, rfl, rfl⟩

theorem headClass_unique {m n : Nat} (hm : ∃ c r, w = c :: r ∧ headClass c = m)
    (hn : ∃ c r, w = c :: r ∧ headClass c = n) : m = n := by
  obtain ⟨c, r, rfl, rfl⟩ := hm
  obtain ⟨d, r, heq, rfl⟩ := hn
  rw [(List.cons.inj heq).1]

/-- No word is for two parts, but that positions and sizes have their numbers in common. -/
theorem IsWord.disjoint (h : IsWord k w) (h' : IsWord l w) :
    k = l ∨ k.isMeasured = true ∧ l.isMeasured = true := by
  have hdiffer {m n : Nat} (hm : ∃ c r, w = c :: r ∧ headClass c = m)
      (hn : ∃ c r, w = c :: r ∧ headClass c = n) (hmn : m ≠ n) {q : Prop} : q :=
    absurd (headClass_unique hm hn) hmn
  cases h with
  | keyword h =>
    cases h' with
    | keyword h' => exact .inl (keyword_disjoint h h')
    | measure _ h' => exact hdiffer (headClass_of_keyword h) (headClass_of_isMeasure h') (by decide)
    | hex h' => exact hdiffer (headClass_of_keyword h) (headClass_of_isHex h') (by decide)
  | measure hk h =>
    cases h' with
    | keyword h' => exact hdiffer (headClass_of_isMeasure h) (headClass_of_keyword h') (by decide)
    | measure hl _ => exact .inr ⟨hk, hl⟩
    | hex h' => exact hdiffer (headClass_of_isMeasure h) (headClass_of_isHex h') (by decide)
  | hex h =>
    cases h' with
    | keyword h' => exact hdiffer (headClass_of_isHex h) (headClass_of_keyword h') (by decide)
    | measure _ h' => exact hdiffer (headClass_of_isHex h) (headClass_of_isMeasure h') (by decide)
    | hex _ => exact .inl rfl

def BeginsCall (w : List Char) : Prop :=
  ∃ name r, w = name ++ '(' :: r ∧ ∀ c ∈ name, isCallChar c = true

theorem not_beginsCall_append (hs : '(' ∉ s)
    (ht : ∀ c ∈ t.head?, isCallChar c = false ∧ c ≠ '(') : ¬BeginsCall (s ++ t) := by
  rintro ⟨name, r, hsplit, hname⟩
  obtain ⟨a, rfl, ha⟩ | ⟨a, rfl, ha⟩ := List.append_eq_append_iff.mp hsplit
  · cases a with
    | nil => exact (ht '(' (by rw [ha]; rfl)).2 rfl
    | cons c a =>
      have hc := (ht c (by rw [ha]; rfl)).1
      rw [hname c (by simp)] at hc
      exact Bool.noConfusion hc
  · cases a with
    | nil => exact (ht '(' (by rw [← List.nil_append t, ← ha]; rfl)).2 rfl
    | cons c a =>
      obtain ⟨rfl, -⟩ := List.cons.inj ha
      exact hs (by simp)

/-- A text that opens no bracket is no call with a stop behind it, and neither is its beginning. -/
theorem not_beginsCall_of_stop (hs : '(' ∉ s) (ht : Stop t) : ¬BeginsCall (s ++ t) := by
  refine not_beginsCall_append hs fun c hc => ?_
  have hrefused := ht.refused (f := fun c => isCallChar c || c == '(') (by decide) c hc
  simpa using hrefused

theorem not_beginsCall (hw : ∀ c ∈ w, isWordy c = true) (ht : Stop t) : ¬BeginsCall (w ++ t) :=
  not_beginsCall_of_stop (fun hm => absurd (hw '(' hm) (by decide)) ht

theorem firm_of_toLower (h : Starts (fun c => !isStop c.toLower) p) : Firm p := by
  refine h.mono fun c hc => ?_
  rw [Bool.not_eq_true', ← Bool.not_eq_true] at hc ⊢
  intro hstop
  have hall : stops.all (fun c => isStop c.toLower) = true := by decide
  exact hc (List.all_eq_true.mp hall c (mem_stops.mp hstop))

theorem firm_words (k : Part) : Firm (oneOf k.words) := by
  refine firm_of_toLower (.oneOf (f := fun c => !isStop c) (List.all_eq_true.mpr fun x hx => ?_))
  have hsound := List.all_eq_true.mp (isSound_words k) x hx
  have hwordy := isWordy_of_isSound hsound
  simp only [isSound, Bool.and_eq_true] at hsound
  cases hlower : lower x.toList with
  | nil => simp [hlower] at hsound
  | cons c r =>
    rw [hlower] at hwordy
    simp [not_isStop_of_isWordy (hwordy c List.mem_cons_self)]

theorem firm_word {x : String}
    (h : ((lower x.toList).head?.any fun c => !isStop c) = true) : Firm (Pattern.word x) :=
  firm_of_toLower (.word (f := fun c => !isStop c) h)

theorem firm_signedDecimal : Firm signedDecimal := by
  have hdigit {c : Char} (hc : isDigit c = true) : (!isStop c) = true := by
    rw [not_isStop_of_isWordy (isWordy_of_alphanumeric (by rw [hc, Bool.or_true]))]
    rfl
  have hsign {c : Char} (hc : (c == '-' || c == '+') = true) : (!isStop c) = true := by
    obtain rfl | rfl : c = '-' ∨ c = '+' := by simpa using hc
    · decide
    · decide
  have hpoint : Firm (symbol '.') := .char fun c hc => by
    rw [beq_iff_eq.mp hc]
    decide
  exact .optional_seq (.char fun _ => hsign)
    (.seq (.alt (.seq (.many1 fun _ => hdigit) _) (hpoint.seq _)) _)

theorem firm_pattern (k : Part) : Firm k.pattern := by
  cases k with
  | image =>
    have hshape : Firm
        (Pattern.any [Pattern.word "linear", Pattern.word "radial", Pattern.word "conic"]) :=
      .alt (firm_word (by decide)) (.alt (firm_word (by decide)) (firm_word (by decide)))
    exact .alt (.seq (firm_word (by decide)) _)
      (.alt (.optional_seq (firm_word (by decide)) (hshape.seq _)) (firm_word (by decide)))
  | position => exact .alt (firm_words .position) firm_signedDecimal
  | size => exact .alt (firm_words .size) firm_signedDecimal
  | tiling => exact firm_words .tiling
  | attachment => exact firm_words .attachment
  | box => exact firm_words .box
  | color =>
    have hhash : Firm (symbol '#') := .char fun c hc => by
      rw [beq_iff_eq.mp hc]
      decide
    have hname {x : String} (hx : ((lower x.toList).head?.any fun c => !isStop c) = true) :
        Firm (seq (Pattern.word x) (optional (anyCase 'a'))) := (firm_word hx).seq _
    have hnames : Firm (oneOf (namedColors ++ specialColors)) := firm_words .color
    have hfunction : Firm colorFunction := .seq (.alt (hname (by decide)) (hname (by decide))) _
    refine .any ?_
    simp only [List.forall_mem_cons, List.not_mem_nil, false_implies, implies_true, and_true]
    exact ⟨hhash.seq _, hhash.seq _, hfunction, hnames⟩

theorem within_word {x : String} (h : (lower x.toList).all isCallChar = true) :
    Within isCallChar (Pattern.word x) := by
  intro w hw c hc
  have hlow := List.all_eq_true.mp h c.toLower (lower_of_word hw ▸ List.mem_map_of_mem hc)
  obtain hc | hc := isLetter_or_toLower_eq c
  · simp [isCallChar, hc]
  · rwa [hc] at hlow

theorem beginsCall_append (hp : Within isCallChar p) {q : Pattern} (hq : Starts (· == '(') q)
    (hu : Language p u) (hv : Language q v) : BeginsCall (u ++ v) := by
  obtain ⟨c, r, rfl, hc⟩ := hq v hv
  rw [beq_iff_eq.mp hc]
  exact ⟨u, r, rfl, hp u hu⟩

theorem isMeasure_of_language (h : Language signedDecimal w) : IsMeasure w := by
  obtain ⟨sign, rest, rfl, hsign, number, unit, rfl, hnumber, hunit⟩ := h
  refine .of ?_ ?_ ?_
  · obtain ⟨c, rfl, hc⟩ | rfl := hsign
    · obtain rfl | rfl : c = '-' ∨ c = '+' := by simpa using hc
      · exact .inr (.inl rfl)
      · exact .inr (.inr rfl)
    · exact .inl rfl
  · obtain ⟨ds, es, rfl, ⟨u, v, rfl, ⟨d, rfl, hd⟩, hv⟩, hes⟩ | ⟨u, es, rfl, ⟨c, rfl, hc⟩, hes⟩ :=
      hnumber
    · have hds : ∀ e ∈ [d] ++ v, isDigit e = true := List.forall_mem_cons.mpr ⟨hd, hv⟩
      obtain ⟨x, y, rfl, ⟨c, rfl, hc⟩, hy⟩ | rfl := hes
      · rw [beq_iff_eq.mp hc]
        exact .mixed (List.cons_ne_nil d v) hds hy
      · rw [List.append_nil]
        exact .whole (List.cons_ne_nil d v) hds
    · rw [beq_iff_eq.mp hc]
      obtain ⟨x, y, rfl, ⟨d, rfl, hd⟩, hy⟩ := hes
      exact .fraction (List.cons_ne_nil d y) (List.forall_mem_cons.mpr ⟨hd, hy⟩)
  · obtain hunit | rfl := hunit
    · exact .inr (isWordOf_iff.mpr (exists_of_oneOf hunit))
    · exact .inl rfl

theorem language_hexDigits (n : Nat) : Language (Pattern.all (List.replicate n hexDigit)) w ↔
    w.length = n ∧ ∀ c ∈ w, isHexDigit c = true := by
  induction n generalizing w with
  | zero =>
    rw [List.length_eq_zero_iff]
    exact ⟨fun h => by obtain rfl : w = [] := h; simp, And.left⟩
  | succ n ih =>
    cases n with
    | zero =>
      constructor
      · rintro ⟨c, rfl, hc⟩
        exact ⟨rfl, List.forall_mem_singleton.mpr hc⟩
      · rintro ⟨hlength, hw⟩
        obtain ⟨c, rfl⟩ := List.length_eq_one_iff.mp hlength
        exact ⟨c, rfl, hw c List.mem_cons_self⟩
    | succ n =>
      constructor
      · rintro ⟨u, v, rfl, ⟨c, rfl, hc⟩, hv⟩
        obtain ⟨hlength, hall⟩ := ih.mp hv
        exact ⟨by simp [hlength], List.forall_mem_cons.mpr ⟨hc, hall⟩⟩
      · rintro ⟨hlength, hw⟩
        cases w with
        | nil => simp at hlength
        | cons c w =>
          obtain ⟨hc, hw⟩ := List.forall_mem_cons.mp hw
          exact ⟨[c], w, rfl, ⟨c, rfl, hc⟩, ih.mpr ⟨by simpa using hlength, hw⟩⟩

theorem takes_hexDigits (hw : ∀ c ∈ w, isHexDigit c = true) (t : List Char) :
    Takes (Pattern.all (List.replicate w.length hexDigit)) w t := by
  induction w with
  | nil =>
    have hnil : Takes (Pattern.all (([] : List Char).map anyCase)) [] t := .letters rfl t
    exact hnil
  | cons c w ih =>
    obtain ⟨hc, hw⟩ := List.forall_mem_cons.mp hw
    have hdigit : Takes hexDigit [c] (w ++ t) := .char hc _
    cases w with
    | nil => exact hdigit
    | cons d w => exact hdigit.seq (ih hw)

theorem starts_opening (q : Pattern) : Starts (· == '(') (seq (symbol '(') q) :=
  .seq (.char fun _ => id) q

theorem beginsCall_url (h : Language (seq (Pattern.word "url") arguments) w) : BeginsCall w := by
  obtain ⟨u, v, rfl, hu, hv⟩ := h
  exact beginsCall_append (within_word (by decide)) (starts_opening _) hu hv

theorem beginsCall_gradient (h : Language gradient w) : BeginsCall w := by
  have hname : Within isCallChar (Pattern.all [optional (Pattern.word "repeating-"),
      Pattern.any [Pattern.word "linear", Pattern.word "radial", Pattern.word "conic"],
      Pattern.word "-gradient"]) :=
    (within_word (by decide)).optional.seq (.seq (.alt (within_word (by decide))
      (.alt (within_word (by decide)) (within_word (by decide)))) (within_word (by decide)))
  obtain ⟨u, v, rfl, hu, hv⟩ := (language_all_concat (List.cons_ne_nil _ [_, _])).mp h
  exact beginsCall_append hname (starts_opening _) hu hv

theorem beginsCall_colorFunction (h : Language colorFunction w) : BeginsCall w := by
  have hletter : Within isCallChar (anyCase 'a') := .char fun c hc => by
    obtain hl | hl := isLetter_or_toLower_eq c
    · simp [isCallChar, hl]
    · rw [← hl, beq_iff_eq.mp hc]
      decide
  have hname : Within isCallChar (Pattern.any
      [seq (Pattern.word "rgb") (optional (anyCase 'a')),
        seq (Pattern.word "hsl") (optional (anyCase 'a'))]) :=
    ((within_word (by decide)).seq hletter.optional).alt
      ((within_word (by decide)).seq hletter.optional)
  obtain ⟨u, v, rfl, hu, hv⟩ := h
  exact beginsCall_append hname (starts_opening _) hu hv

theorem isHex_of_hexColor {n : Nat} (hn : n + 1 = 6 ∨ n + 1 = 3) (h : Language (hexColor (n + 1)) w) :
    IsHex w := by
  obtain ⟨u, v, rfl, ⟨c, rfl, hc⟩, hv⟩ := h
  obtain ⟨hlength, hall⟩ := (language_hexDigits (n + 1)).mp hv
  rw [beq_iff_eq.mp hc]
  exact ⟨v, rfl, hall, by rwa [hlength]⟩

theorem isWordOf_of_language {ws : List String} (hp : p = oneOf ws) (h : Language p w) :
    Keyword.isWordOf ws w = true := by
  rw [hp] at h
  exact isWordOf_iff.mpr (exists_of_oneOf h)

theorem language_color (h : Language color w) : IsWord .color w ∨ Language colorFunction w := by
  rw [color] at h
  obtain ⟨p, hp, h⟩ := exists_of_any h
  simp only [List.mem_cons, List.not_mem_nil, or_false] at hp
  -- The list of names is too long to be put in place of the pattern.
  obtain rfl | rfl | rfl | hp := hp
  · exact .inl (.hex (isHex_of_hexColor (.inl rfl) h))
  · exact .inl (.hex (isHex_of_hexColor (.inr rfl) h))
  · exact .inr h
  · exact .inl (.keyword (isWordOf_of_language hp h))

/-- Every match of the pattern of a part is a word of the part or a call. -/
theorem language_pattern (h : Language k.pattern w) : IsWord k w ∨ BeginsCall w := by
  cases k with
  | image =>
    obtain h | h | h := h
    · exact .inr (beginsCall_url h)
    · exact .inr (beginsCall_gradient h)
    · exact .inl (.keyword (isWordOf_iff.mpr ⟨"none", List.mem_singleton_self _, lower_of_word h⟩))
  | position | size =>
    exact h.elim (fun h => .inl (.keyword (isWordOf_of_language rfl h))) fun h =>
      .inl (.measure rfl (isMeasure_of_language h))
  | tiling | attachment | box => exact .inl (.keyword (isWordOf_of_language rfl h))
  | color => exact (language_color h).imp_right beginsCall_colorFunction

/-- The pattern of a part passes over what is no word of the part. -/
theorem passes_of_wordy (hw : ∀ c ∈ w, isWordy c = true) (hnot : ¬IsWord l w) (ht : Stop t) :
    Passes l.pattern w t := by
  intro v rest hsplit hv
  obtain hv | ⟨name, r, rfl, hname⟩ := language_pattern hv
  · obtain ⟨a, rfl, ha⟩ | ⟨a, rfl, ha⟩ := List.append_eq_append_iff.mp hsplit
    · cases a with
      | nil =>
        rw [List.append_nil] at hv
        exact absurd hv hnot
      | cons c a =>
        have hstop := ht c (by rw [ha]; rfl)
        rw [not_isStop_of_isWordy (hv.wordy c (by simp))] at hstop
        exact Bool.noConfusion hstop
    · cases a with
      | nil =>
        rw [List.append_nil] at hnot
        exact absurd hv hnot
      | cons c a =>
        refine ⟨by simp, ?_⟩
        rw [ha]
        exact endsToken_of_isWordy (hw c (by simp)) (a ++ t)
  · exact absurd ⟨name, r ++ rest, by rw [hsplit]; simp, hname⟩ (not_beginsCall hw ht)

theorem skips_of_wordy (hne : w ≠ []) (hw : ∀ c ∈ w, isWordy c = true) (hnot : ¬IsWord l w) :
    Skips l.pattern w :=
  .word (firm_pattern l) hne (fun c hc => not_isGap_of_isWordy (hw c hc)) fun _ =>
    passes_of_wordy hw hnot

/-- The words of a part are matched where they end a token, since no longer one is. -/
theorem takes_of_isWordOf (h : Keyword.isWordOf k.words w = true) (ht : endsToken t = true) :
    Takes (oneOf k.words) w t := by
  obtain ⟨x, hx, hlower⟩ := isWordOf_iff.mp h
  refine .oneOf hx hlower fun c hc y hy hm => ?_
  obtain ⟨r, rfl⟩ : ∃ r, t = c :: r := List.head?_eq_some_iff.mp hc
  have hwordy := isWordy_of_isSound (List.all_eq_true.mp (isSound_words k) y hy) _ hm
  rw [endsToken_of_isWordy (isWordy_of_toLower hwordy)] at ht
  contradiction

theorem refuses_of_not_beginsCall (hp : ∀ v, Language p v → BeginsCall v) (hs : ¬BeginsCall s) :
    Refuses p s := by
  rintro v rest rfl hv
  obtain ⟨name, r, rfl, hname⟩ := hp v hv
  exact hs ⟨name, r ++ rest, by simp, hname⟩

theorem not_isWord_initial (k : Part) : ¬IsWord k Declaration.initial.toList := by
  have hclass : ∃ c r, Declaration.initial.toList = c :: r ∧ headClass c = 0 := ⟨'i', _, rfl, rfl⟩
  have hlower : lower Declaration.initial.toList = Declaration.initial.toList := by decide
  intro h
  cases h with
  | keyword h =>
    have hsound := isSound_of_keyword h
    simp only [isSound, Bool.and_eq_true] at hsound
    simp [hlower] at hsound
  | measure _ h => exact absurd (headClass_unique hclass (headClass_of_isMeasure h)) (by decide)
  | hex h => exact absurd (headClass_unique hclass (headClass_of_isHex h)) (by decide)

theorem refuses_words (hw : ∃ c r, w = c :: r ∧ headClass c ≠ 0) (k : Part) (t : List Char) :
    Refuses (oneOf k.words) (w ++ t) := by
  intro v rest hsplit hv
  obtain ⟨c, r, rfl, hc⟩ := hw
  obtain ⟨d, r, rfl, hd⟩ := headClass_of_keyword (isWordOf_iff.mpr (exists_of_oneOf hv))
  rw [(List.cons.inj hsplit).1, hd] at hc
  exact hc rfl

theorem refuses_hexColor {ds : List Char} (hds : ds.length = 3) (ht : Stop t) :
    Refuses (hexColor 6) ('#' :: ds ++ t) := by
  rintro v rest hsplit ⟨u, es, rfl, ⟨c, rfl, -⟩, hes⟩
  obtain ⟨hlength, hall⟩ := (language_hexDigits 6).mp hes
  have hsplit : ds ++ t = es ++ rest := (List.cons.inj hsplit).2
  obtain ⟨a, ha, hat⟩ | ⟨a, ha, -⟩ := List.append_eq_append_iff.mp hsplit
  · cases a with
    | nil => simp [ha, hds] at hlength
    | cons d a =>
      have hstop := ht d (by rw [hat]; rfl)
      have hhex := hall d (by rw [ha]; simp)
      rw [not_isStop_of_isWordy (isWordy_of_alphanumeric (isLetter_or_isDigit hhex))] at hstop
      exact Bool.noConfusion hstop
  · have := congrArg List.length ha
    rw [List.length_append] at this
    omega

theorem refuses_hexColor_keyword (h : Keyword.isWordOf k.words w = true) (n : Nat)
    (t : List Char) : Refuses (hexColor (n + 1)) (w ++ t) := by
  obtain ⟨c, r, rfl, hc⟩ := headClass_of_keyword h
  refine Starts.refuses (f := (· == '#')) (.seq (.char fun _ => id) _) ?_
  rintro d ⟨⟩
  rw [beq_eq_false_iff_ne]
  rintro rfl
  exact absurd hc (by decide)

theorem takes_keyword (h : Keyword.isWordOf k.words w = true) (ht : Stop t) :
    Takes k.pattern w t := by
  have htakes := takes_of_isWordOf h (endsToken_of_stop ht)
  have hcall := not_beginsCall (IsWord.keyword h).wordy ht
  cases k with
  | image =>
    obtain ⟨x, hx, hlower⟩ := isWordOf_iff.mp h
    obtain rfl := List.mem_singleton.mp hx
    have hgradient := refuses_of_not_beginsCall (fun _ => beginsCall_gradient) hcall
    have hurl := refuses_of_not_beginsCall (fun _ => beginsCall_url) hcall
    exact ((Takes.word hlower t).alt_right hgradient).alt_right hurl
  | position => exact htakes.alt_left _
  | size => exact htakes.alt_left _
  | color =>
    have hhex (n : Nat) := refuses_hexColor_keyword (k := .color) h n t
    have hfunction := refuses_of_not_beginsCall (fun _ => beginsCall_colorFunction) hcall
    have hothers : ∀ q ∈ [hexColor 6, hexColor 3, colorFunction],
        Takes q w t ∨ Refuses q (w ++ t) := by simp [hhex, hfunction]
    exact .any_append hothers htakes []
  | _ => exact htakes

theorem takes_measure (hk : k.isMeasured = true) (h : IsMeasure w) (ht : Stop t) :
    Takes k.pattern w t := by
  obtain ⟨c, r, hw, hc⟩ := headClass_of_isMeasure h
  have hrefuses (l : Part) := refuses_words ⟨c, r, hw, by rw [hc]; decide⟩ l t
  cases k with
  | position => exact (takes_signedDecimal h ht).alt_right (hrefuses .position)
  | size => exact (takes_signedDecimal h ht).alt_right (hrefuses .size)
  | _ => contradiction

theorem takes_hex (h : IsHex w) (ht : Stop t) : Takes Part.color.pattern w t := by
  obtain ⟨ds, rfl, hds, hlength⟩ := h
  have hhash : Takes (symbol '#') ['#'] (ds ++ t) := .char rfl _
  have htakes := hhash.seq (takes_hexDigits hds t)
  obtain hlength | hlength := hlength
  · rw [hlength] at htakes
    exact Takes.any_cons_left (p := hexColor 6) htakes _
  · rw [hlength] at htakes
    exact .any_cons_right (refuses_hexColor hlength ht)
      (Takes.any_cons_left (p := hexColor 3) htakes _)

/-- The pattern of a part takes the words of the part. -/
theorem IsWord.takes (h : IsWord k w) (ht : Stop t) : Takes k.pattern w t := by
  cases h with
  | keyword h => exact takes_keyword h ht
  | measure hk h => exact takes_measure hk h ht
  | hex h => exact takes_hex h ht

theorem IsWord.adds (h : IsWord k w) : Adds k.pattern w [w] :=
  .token (firm_pattern k) fun _ => h.takes

theorem IsWord.ne_nil (h : IsWord k w) : w ≠ [] := by
  obtain ⟨c, r, rfl, -⟩ := (firm_pattern k).head (h.takes (t := []) (by simp [Stop])).language
  simp

theorem IsWord.skips (h : IsWord k w) (hne : k ≠ l)
    (hmeasured : k.isMeasured = false ∨ l.isMeasured = false) : Skips l.pattern w := by
  refine skips_of_wordy h.ne_nil h.wordy fun h' => ?_
  obtain hkl | ⟨hk, hl⟩ := h.disjoint h'
  · exact hne hkl
  · simp [hk, hl] at hmeasured

end StyleFold.BackgroundShorthand
