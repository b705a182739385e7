import StyleFold.Keyword.Basic
import StyleFold.Pattern.Style
import StyleFold.Proofs.Pattern.Takes
import StyleFold.Proofs.Value.Tame

/-!
How numbers and function calls are spelled, and that the patterns for them take whole spellings.
-/
namespace StyleFold.Pattern
open Text

variable {n : Nat} {p : Pattern} {c : Char} {s t u v w name : List Char} {f : Char → Bool}
  {first : Bool} {groups : List (Nat × List Char × List Char)} {ws : List String}

/-- Tokens end before a gap and before a slash. -/
def isStop (c : Char) : Bool :=
  isGap c || c == '/'

def Stop (t : List Char) : Prop :=
  ∀ c ∈ t.head?, isStop c = true

def stops : List Char :=
  [' ', '\t', '\n', '\r', '\x0c', '\x0b', '/']

theorem mem_stops : isStop c = true ↔ c ∈ stops := by
  simp [isStop, stops, isGap, isSpace, isNewline, or_assoc]

theorem isStop_of_isGap (h : isGap c = true) : isStop c = true := by
  simp [isStop, h]

theorem not_isGap_of_not_isStop (h : isStop c = false) : isGap c = false :=
  (Bool.or_eq_false_iff.mp h).1

theorem not_isStop_of_accepts (hf : stops.all (fun c => !f c) = true) (hc : f c = true) :
    (!isStop c) = true := by
  rw [Bool.not_eq_true', ← Bool.not_eq_true]
  intro hstop
  have hnot := List.all_eq_true.mp hf c (mem_stops.mp hstop)
  rw [hc] at hnot
  contradiction

theorem Stop.refused (h : Stop t) (hf : stops.all (fun c => !f c) = true) :
    ∀ c ∈ t.head?, f c = false := by
  intro c hc
  simpa using List.all_eq_true.mp hf c (mem_stops.mp (h c hc))

inductive IsDecimal : List Char → Prop
  | whole {ds : List Char} (hne : ds ≠ []) (hds : ∀ d ∈ ds, isDigit d = true) : IsDecimal ds
  | mixed {ds es : List Char} (hne : ds ≠ []) (hds : ∀ d ∈ ds, isDigit d = true)
      (hes : ∀ e ∈ es, isDigit e = true) : IsDecimal (ds ++ '.' :: es)
  | fraction {es : List Char} (hne : es ≠ []) (hes : ∀ e ∈ es, isDigit e = true) :
      IsDecimal ('.' :: es)

inductive IsMeasure : List Char → Prop
  | of {sign number unit : List Char} (hsign : sign = [] ∨ sign = ['-'] ∨ sign = ['+'])
      (hnumber : IsDecimal number)
      (hunit : unit = [] ∨ Keyword.isWordOf (lengthUnits ++ ["%"]) unit = true) :
      IsMeasure (sign ++ (number ++ unit))

/-- Round brackets are balanced and at most one level deep. -/
inductive Shallow : List Char → Prop
  | nil : Shallow []
  | plain {c : Char} {s : List Char} (hc : isPlain c = true) (hs : Shallow s) : Shallow (c :: s)
  | bracket {u s : List Char} (hu : ∀ c ∈ u, isPlain c = true) (hs : Shallow s) :
      Shallow ('(' :: (u ++ ')' :: s))

theorem isWordOf_iff : Keyword.isWordOf ws w = true ↔ ∃ x ∈ ws, lower w = lower x.toList := by
  simp only [Keyword.isWordOf, List.any_eq_true, sameWord_iff, @eq_comm _ (lower w)]

def areSolid (ws : List String) : Bool :=
  ws.all fun x => (lower x.toList).all fun c => !isStop c

theorem Takes.keyword (hws : areSolid ws = true) (hw : Keyword.isWordOf ws w = true)
    (ht : Stop t) : Takes (Pattern.oneOf ws) w t := by
  obtain ⟨x, hx, hlower⟩ := isWordOf_iff.mp hw
  refine .oneOf hx hlower fun c hc y hy hm => ?_
  have hsolid := List.all_eq_true.mp (List.all_eq_true.mp hws y hy) _ hm
  have hstop := ht c hc
  have hlow : stops.all (fun c => isStop c.toLower) = true := by decide
  rw [List.all_eq_true.mp hlow c (mem_stops.mp hstop)] at hsolid
  contradiction

theorem starts_digits : Starts isDigit (many1 isDigit) :=
  .many1 fun _ => id

theorem takes_decimal (hw : IsDecimal w) (ht : ∀ c ∈ t.head?, isDigit c = false ∧ c ≠ '.') :
    Takes decimal w t := by
  have hdigit : ∀ c ∈ t.head?, isDigit c = false := fun c hc => (ht c hc).1
  have hpoint (s : List Char) : Takes (symbol '.') ['.'] s := .char (beq_self_eq_true '.') s
  cases hw with
  | whole hne hds =>
    have hfraction : Refuses (seq (symbol '.') (many isDigit)) t :=
      .seq (Starts.refuses (f := (· == '.')) (.char fun _ => id) fun c hc => by
        simpa using (ht c hc).2) _
    have htakes := (Takes.many1 (t := [] ++ t) hne hds hdigit).seq (.optional_empty hfraction)
    rw [List.append_nil] at htakes
    exact htakes.alt_left _
  | @mixed ds es hne hds hes =>
    have hfraction := (hpoint (es ++ t)).seq (Takes.many hes hdigit)
    have hwhole : ∀ c ∈ ('.' :: es ++ t).head?, isDigit c = false := by
      rintro c ⟨⟩
      decide
    exact ((Takes.many1 hne hds hwhole).seq hfraction.optional).alt_left _
  | fraction hne hes =>
    refine .alt_right ((hpoint _).seq (Takes.many1 hne hes hdigit)) (.seq ?_ _)
    refine starts_digits.refuses ?_
    rintro c ⟨⟩
    decide

def continuesNumber (c : Char) : Bool :=
  isDigit c || c == '.'

theorem decimal_head (hw : IsDecimal w) : ∃ c r, w = c :: r ∧ continuesNumber c = true := by
  have hdigits {ds : List Char} (hne : ds ≠ []) (hds : ∀ d ∈ ds, isDigit d = true) :
      ∃ c r, ds = c :: r ∧ continuesNumber c = true := by
    obtain ⟨c, r, rfl⟩ := List.exists_cons_of_ne_nil hne
    exact ⟨c, r, rfl, by simp [continuesNumber, hds c List.mem_cons_self]⟩
  cases hw with
  | whole hne hds => exact hdigits hne hds
  | mixed hne hds _ =>
    obtain ⟨c, r, rfl, hc⟩ := hdigits hne hds
    exact ⟨c, _, rfl, hc⟩
  | fraction => exact ⟨'.', _, rfl, by decide⟩

theorem starts_unit : Starts (fun c => !(isStop c.toLower || continuesNumber c.toLower)) unit :=
  .oneOf (f := fun c => !(isStop c || continuesNumber c)) (by decide +kernel)

theorem not_continuesNumber (h : continuesNumber c.toLower = false) :
    isDigit c = false ∧ c ≠ '.' := by
  constructor
  · rw [← Bool.not_eq_true]
    intro hd
    simp [toLower_of_isDigit hd, continuesNumber, hd] at h
  · rintro rfl
    exact absurd h (by decide)

theorem takes_decimalWithUnit {number unit : List Char} (hnumber : IsDecimal number)
    (hunit : unit = [] ∨ Keyword.isWordOf (lengthUnits ++ ["%"]) unit = true) (ht : Stop t) :
    Takes decimalWithUnit (number ++ unit) t := by
  obtain rfl | hunit := hunit
  · have hrefuses : Refuses Pattern.unit t := starts_unit.refuses (ht.refused (by decide))
    have hend : ∀ c ∈ ([] ++ t).head?, isDigit c = false ∧ c ≠ '.' := fun c hc =>
      ⟨ht.refused (f := isDigit) (by decide) c hc,
        by simpa using ht.refused (f := (· == '.')) (by decide) c hc⟩
    exact (takes_decimal hnumber hend).seq (.optional_empty hrefuses)
  · have htakes : Takes Pattern.unit unit t := .keyword (by decide +kernel) hunit ht
    obtain ⟨c, r, rfl, hc⟩ := starts_unit unit htakes.language
    have hend : ∀ d ∈ (c :: r ++ t).head?, isDigit d = false ∧ d ≠ '.' := by
      rintro d ⟨⟩
      simp only [Bool.not_eq_true', Bool.or_eq_false_iff] at hc
      exact not_continuesNumber hc.2
    exact (takes_decimal hnumber hend).seq htakes.optional

theorem takes_signedDecimal (hw : IsMeasure w) (ht : Stop t) : Takes signedDecimal w t := by
  obtain ⟨hsign, hnumber, hunit⟩ := hw
  have htakes := takes_decimalWithUnit hnumber hunit ht
  have hchar {c : Char} (hc : (c == '-' || c == '+') = true) (s : List Char) :
      Takes (optional (char fun c => c == '-' || c == '+')) [c] s :=
    (Takes.char hc s).optional
  obtain rfl | rfl | rfl := hsign
  · obtain ⟨c, r, rfl, hc⟩ := decimal_head hnumber
    refine (Takes.optional_empty ?_).seq htakes
    refine Starts.refuses (.char fun _ => id) ?_
    rintro d ⟨⟩
    simp only [Bool.or_eq_false_iff, beq_eq_false_iff_ne]
    constructor <;>
    · rintro rfl
      exact absurd hc (by decide)
  · exact (hchar rfl _).seq htakes
  · exact (hchar rfl _).seq htakes

abbrev argument : Pattern :=
  alt (char isPlain) (all [symbol '(', many isPlain, symbol ')'])

theorem takes_bracket (hu : ∀ c ∈ u, isPlain c = true) (t : List Char) :
    Takes argument ('(' :: (u ++ [')'])) t := by
  have hopen : Takes (symbol '(') ['('] (u ++ [')'] ++ t) := .char rfl _
  have hclose : Takes (symbol ')') [')'] t := .char rfl t
  have hmany : Takes (many isPlain) u ([')'] ++ t) := .many hu (by rintro c ⟨⟩; decide)
  refine .alt_right (hopen.seq (hmany.seq hclose)) (Starts.refuses (f := isPlain) (.char fun _ => id) ?_)
  rintro c ⟨⟩
  decide

theorem starts_argument : Starts (· != ')') argument := by
  refine .alt (.char fun c hc => ?_) (.seq (.char fun c hc => ?_) _)
  · simpa [isPlain] using (by simpa [isPlain] using hc : c ≠ '(' ∧ c ≠ ')').2
  · rw [beq_iff_eq.mp hc]
    decide

theorem head?_starOutcomes {m : Nat} {d : Cursor} (h : Takes p w t) (hn : (w ++ t).length ≤ n)
    (hd : (starOutcomes (outcomes n p) m ⟨first && w.isEmpty, t, groups⟩).head? = some d) :
    (starOutcomes (outcomes n p) (m + 1) ⟨first, w ++ t, groups⟩).head? = some d := by
  obtain ⟨ds, hds⟩ := List.head?_eq_some_iff.mp (h n first groups hn)
  rw [starOutcomes, hds, List.flatMap_cons, List.append_assoc, List.head?_append, hd]
  rfl

/-- Steps are made up to the bracket that closes the arguments. -/
theorem starOutcomes_shallow (h : Shallow u) (hn : (u ++ ')' :: t).length ≤ n) {m : Nat}
    (hm : u.length ≤ m) : (starOutcomes (outcomes n argument) m ⟨first, u ++ ')' :: t, groups⟩).head? =
      some ⟨first && u.isEmpty, ')' :: t, groups⟩ := by
  induction h generalizing m first with
  | nil =>
    have hstop : outcomes n argument ⟨first, ')' :: t, groups⟩ = [] :=
      outcomes_of_refuses (starts_argument.refuses (by rintro c ⟨⟩; rfl))
    cases m with
    | zero => simp [starOutcomes]
    | succ m => simp [starOutcomes, hstop]
  | @plain c s hc hs ih =>
    obtain ⟨m, rfl⟩ : ∃ k, m = k + 1 := ⟨m - 1, by simp at hm; omega⟩
    have hstep : Takes argument [c] (s ++ ')' :: t) := (Takes.char hc _).alt_left _
    have hsplit : c :: s ++ ')' :: t = [c] ++ (s ++ ')' :: t) := rfl
    rw [hsplit] at hn ⊢
    refine head?_starOutcomes hstep hn ?_
    rw [ih (by simp at hn ⊢; omega) (by simpa using hm)]
    simp
  | @bracket v s hv hs ih =>
    obtain ⟨m, rfl⟩ : ∃ k, m = k + 1 := ⟨m - 1, by simp at hm; omega⟩
    have hstep := takes_bracket hv (s ++ ')' :: t)
    have hsplit : '(' :: (v ++ ')' :: s) ++ ')' :: t =
        '(' :: (v ++ [')']) ++ (s ++ ')' :: t) := by simp
    rw [hsplit] at hn ⊢
    refine head?_starOutcomes hstep hn ?_
    rw [ih (by simp at hn ⊢; omega) (by simp at hm; omega)]
    simp

theorem takes_arguments (h : Shallow u) (t : List Char) :
    Takes arguments ('(' :: (u ++ [')'])) t := by
  have hopen : Takes (symbol '(') ['('] (u ++ [')'] ++ t) := .char rfl _
  have hclose : Takes (symbol ')') [')'] t := .char rfl t
  have hstar : Takes (star argument) u ([')'] ++ t) := fun n first groups hn =>
    starOutcomes_shallow h hn (le_trans (by simp) hn)
  exact hopen.seq (hstar.seq hclose)

def isCallChar (c : Char) : Bool :=
  isLetter c || c == '-'

theorem takes_functionCall (hne : name ≠ []) (hname : ∀ c ∈ name, isCallChar c = true)
    (h : Shallow u) (t : List Char) : Takes functionCall (name ++ '(' :: (u ++ [')'])) t := by
  have hstop : ∀ c ∈ ('(' :: (u ++ [')']) ++ t).head?, isCallChar c = false := by
    rintro c ⟨⟩
    decide
  exact (Takes.many1 hne hname hstop).seq (takes_arguments h t)

end StyleFold.Pattern
