import StyleFold.Token.Lexeme
import Mathlib

/-!
Texts that stand apart: no name, numeral or sign before such a text takes in any of it.
-/
namespace StyleFold.Token
open Text

/-- A text that no token before it can take in, whatever that token is but whitespace. -/
def startsApart : List Char → Bool
  | [] => true
  | '!' :: s => !(['-', '-'].isPrefixOf s)
  | c :: _ =>
    !isNameChar c && !(['\\', '(', '.', '%', '+', '*', '=', '>', '"', '\''].contains c)

theorem not_isNameChar {c : Char} (h : isNameChar c = false) :
    isNameStart c = false ∧ isDigit c = false ∧ c ≠ '-' := by
  simpa [isNameChar, and_assoc] using h

theorem startsApart_cons {c : Char} {s : List Char} (h : startsApart (c :: s) = true) :
    isNameChar c = false ∧ c ∉ ['\\', '(', '.', '%', '+', '*', '=', '>', '"', '\''] := by
  rw [startsApart.eq_def] at h
  split at h
  · simp at *
  · rename_i heq
    cases heq
    decide
  · rename_i heq
    cases heq
    simpa using h

theorem ne_of_startsApart {c d : Char} {s : List Char} (h : startsApart (d :: s) = true)
    (hc : startsApart [c] = false) : d ≠ c := by
  rintro rfl
  obtain ⟨hname, hmark⟩ := startsApart_cons h
  rw [startsApart.eq_def] at hc
  split at hc <;> simp_all

theorem isNameChar_of_isDigit {c : Char} (h : isDigit c = true) : isNameChar c = true := by
  simp [isNameChar, h]

theorem isNameChar_of_isNameStart {c : Char} (h : isNameStart c = true) : isNameChar c = true := by
  simp [isNameChar, h]

theorem takeWhile_append_of_stop {p : Char → Bool} {s t : List Char} (h : t.takeWhile p = []) :
    (s ++ t).takeWhile p = s.takeWhile p := by
  rw [List.takeWhile_append, h]
  split
  · next hl => simpa using ((List.takeWhile_sublist p).eq_of_length hl).symm
  · rfl

theorem takeWhile_append_of_head {p : Char → Bool} {s : List Char} (hne : s ≠ [])
    (h : ∀ c ∈ s.head?, p c = false) (t : List Char) : (s ++ t).takeWhile p = [] := by
  obtain ⟨c, s, rfl⟩ := List.exists_cons_of_ne_nil hne
  exact List.takeWhile_cons_of_neg (by simp [h c rfl])

theorem spanLength_append_of_stop {p : Char → Bool} {s t : List Char} (h : t.takeWhile p = []) :
    spanLength p (s ++ t) = spanLength p s := by
  rw [spanLength, spanLength, takeWhile_append_of_stop h]

theorem spanLength_le (p : Char → Bool) (s : List Char) : spanLength p s ≤ s.length :=
  (List.takeWhile_sublist p).length_le

theorem take_spanLength (p : Char → Bool) (s : List Char) :
    s.take (spanLength p s) = s.takeWhile p := by
  have hfront : s.takeWhile p <+: s := List.takeWhile_prefix p
  exact (List.prefix_iff_eq_take.mp hfront).symm

theorem takeWhile_of_startsApart {p : Char → Bool} {t : List Char} (ht : startsApart t = true)
    (hp : ∀ c, p c = true → isNameChar c = true) : t.takeWhile p = [] := by
  cases t with
  | nil => rfl
  | cons d t =>
    have hd := (startsApart_cons ht).1
    rw [List.takeWhile_cons_of_neg]
    intro h
    simp [hp d h] at hd

end StyleFold.Token

namespace StyleFold.Numeral
open Text Token

variable {s t : List Char}

theorem readSign_append (ht : startsApart t = true) : readSign (s ++ t) = readSign s := by
  cases s with
  | nil =>
    cases t with
    | nil => rfl
    | cons d t =>
      have hp : d ≠ '+' := ne_of_startsApart ht rfl
      have hm : d ≠ '-' := ne_of_startsApart ht rfl
      simp [readSign, hp, hm]
  | cons c s =>
    by_cases hp : c = '+'
    · subst c
      rfl
    · by_cases hm : c = '-'
      · subst c
        rfl
      · simp [readSign, hp, hm]

theorem readSign_length : (if (readSign s).isSome then 1 else 0) ≤ s.length := by
  rw [readSign.eq_def]
  split <;> simp

theorem readFraction_append (ht : startsApart t = true) :
    readFraction (s ++ t) = readFraction s := by
  have hd : t.takeWhile isDigit = [] :=
    takeWhile_of_startsApart ht fun _ => isNameChar_of_isDigit
  cases s with
  | nil =>
    cases t with
    | nil => rfl
    | cons d t =>
      have hdot : d ≠ '.' := ne_of_startsApart ht rfl
      simp [readFraction, hdot]
  | cons c s =>
    by_cases hc : c = '.'
    · subst c
      exact takeWhile_append_of_stop hd
    · simp [readFraction, hc]

theorem readFraction_length :
    (if (readFraction s).isEmpty then 0 else 1 + (readFraction s).length) ≤ s.length := by
  rw [readFraction.eq_def]
  split
  · rename_i s
    have hdigits : (s.takeWhile isDigit).length ≤ s.length := spanLength_le isDigit s
    split <;> simp
    omega
  · simp

theorem readExponent_append (ht : startsApart t = true) :
    readExponent (s ++ t) = readExponent s := by
  have hd : t.takeWhile isDigit = [] :=
    takeWhile_of_startsApart ht fun _ => isNameChar_of_isDigit
  cases s with
  | nil =>
    cases t with
    | nil => rfl
    | cons d t =>
      have hl : d ≠ 'e' := ne_of_startsApart ht rfl
      have hu : d ≠ 'E' := ne_of_startsApart ht rfl
      simp [readExponent, hl, hu]
  | cons c s =>
    simp only [List.cons_append, readExponent, readSign_append ht]
    rw [List.drop_append_of_le_length readSign_length, takeWhile_append_of_stop hd]

theorem readExponent_length : (readExponent s).2 ≤ s.length := by
  cases s with
  | nil => simp [readExponent]
  | cons c s =>
    have h1 := readSign_length (s := s)
    have h2 := spanLength_le isDigit (s.drop (if (readSign s).isSome then 1 else 0))
    rw [spanLength] at h2
    simp only [readExponent]
    grind

theorem read_append (ht : startsApart t = true) : read (s ++ t) = read s := by
  have hd : t.takeWhile isDigit = [] :=
    takeWhile_of_startsApart ht fun _ => isNameChar_of_isDigit
  have h1 := readSign_length (s := s)
  have h2 := spanLength_le isDigit (s.drop (if (readSign s).isSome then 1 else 0))
  rw [spanLength] at h2
  simp only [read, readSign_append ht]
  rw [List.drop_append_of_le_length h1, takeWhile_append_of_stop hd,
    List.drop_append_of_le_length (by simpa using by grind), readFraction_append ht]
  have h3 := readFraction_length (s := s.drop ((if (readSign s).isSome then 1 else 0) +
    ((s.drop (if (readSign s).isSome then 1 else 0)).takeWhile isDigit).length))
  rw [List.drop_append_of_le_length (by grind), readExponent_append ht]

theorem read_length : (read s).2 ≤ s.length := by
  have h1 := readSign_length (s := s)
  have h2 := spanLength_le isDigit (s.drop (if (readSign s).isSome then 1 else 0))
  rw [spanLength] at h2
  have h3 := readFraction_length (s := s.drop ((if (readSign s).isSome then 1 else 0) +
    ((s.drop (if (readSign s).isSome then 1 else 0)).takeWhile isDigit).length))
  have h4 := fun k => readExponent_length (s := s.drop k)
  simp only [read]
  grind

theorem startsFraction_append (ht : startsApart t = true) :
    startsFraction (s ++ t) = startsFraction s := by
  match s, t with
  | s, [] => rw [List.append_nil]
  | [], d :: t =>
    have hdot : d ≠ '.' := ne_of_startsApart ht rfl
    simp [startsFraction, hdot]
  | [c], d :: t =>
    have hd := (not_isNameChar (startsApart_cons ht).1).2.1
    by_cases hc : c = '.' <;> simp [startsFraction, hc, hd]
  | c :: d :: s, t =>
    by_cases hc : c = '.' <;> simp [startsFraction, hc]

theorem startsUnsigned_append (ht : startsApart t = true) :
    startsUnsigned (s ++ t) = startsUnsigned s := by
  match s, t with
  | s, [] => rw [List.append_nil]
  | [], d :: t =>
    have hd := (not_isNameChar (startsApart_cons ht).1).2.1
    have hdot : d ≠ '.' := ne_of_startsApart ht rfl
    simp [startsUnsigned, startsFraction, hd, hdot]
  | c :: s, t =>
    have hf := startsFraction_append (s := c :: s) ht
    simp_all [startsUnsigned]

theorem starts_append (ht : startsApart t = true) : starts (s ++ t) = starts s := by
  match s, t with
  | s, [] => rw [List.append_nil]
  | [], d :: t =>
    have hp : d ≠ '+' := ne_of_startsApart ht rfl
    have hm : d ≠ '-' := ne_of_startsApart ht rfl
    simpa [starts, hp, hm] using startsUnsigned_append (s := []) ht
  | c :: s, t =>
    have hu := startsUnsigned_append (s := c :: s) ht
    by_cases hp : c = '+'
    · subst c
      exact startsUnsigned_append ht
    · by_cases hm : c = '-'
      · subst c
        exact startsUnsigned_append ht
      · simpa [starts, hp, hm] using hu

end StyleFold.Numeral

namespace StyleFold.Token
open Text

variable {c : Char} {s t : List Char}

theorem name_length_le (k : Nat) (s : List Char) : (name k s).length ≤ s.length := by
  fun_induction name k s <;> simp_all [Extent.stop, Extent.skip, Extent.cons]

theorem name_append (hs : '\\' ∉ s) (ht : startsApart t = true) :
    name 0 (s ++ t) = name 0 s := by
  induction s with
  | nil =>
    cases t with
    | nil => rfl
    | cons d t =>
      have hb : d ≠ '\\' := ne_of_startsApart ht rfl
      simp [name, (startsApart_cons ht).1, hb]
  | cons c s ih =>
    have hc : (c == '\\') = false := by simpa using (List.ne_of_not_mem_cons hs).symm
    simp [name, hc, ih (List.not_mem_of_not_mem_cons hs)]

theorem startsName_cons (hm : c ≠ '-') (hb : c ≠ '\\') (s : List Char) :
    startsName (c :: s) = isNameStart c := by
  rw [startsName.eq_def]
  split <;> simp_all

theorem startsName_append (hs : '\\' ∉ s) (ht : startsApart t = true) :
    startsName (s ++ t) = startsName s := by
  match s, t with
  | s, [] => rw [List.append_nil]
  | [], d :: t =>
    obtain ⟨hn, -, hh⟩ := not_isNameChar (startsApart_cons ht).1
    rw [List.nil_append, startsName_cons hh (ne_of_startsApart ht rfl), hn]
    rfl
  | [c], d :: t =>
    by_cases hc : c = '-'
    · subst c
      obtain ⟨hn, -, hh⟩ := not_isNameChar (startsApart_cons ht).1
      have hb : d ≠ '\\' := ne_of_startsApart ht rfl
      have hstart : isNameStart '-' = false := by decide
      simp [startsName, hn, hh, hb, hstart]
    · have hb : c ≠ '\\' := (List.ne_of_not_mem_cons hs).symm
      rw [List.cons_append, startsName_cons hc hb, startsName_cons hc hb]
  | c :: d :: s, t =>
    by_cases hc : c = '-'
    · subst c
      rfl
    · have hb : c ≠ '\\' := (List.ne_of_not_mem_cons hs).symm
      rw [List.cons_append, startsName_cons hc hb, startsName_cons hc hb]

theorem numeric_append (hs : '\\' ∉ s) (ht : startsApart t = true) :
    numeric (s ++ t) = numeric s := by
  have hle := Numeral.read_length (s := s)
  have hd : '\\' ∉ s.drop (Numeral.read s).2 := fun h => hs (List.mem_of_mem_drop h)
  have hstart := startsName_append hd ht
  have hname := name_append hd ht
  simp only [numeric, Numeral.read_append ht]
  rw [List.drop_append_of_le_length hle]
  match h : s.drop (Numeral.read s).2, t with
  | r, [] => rw [List.append_nil]
  | [], d :: t =>
    have hp : d ≠ '%' := ne_of_startsApart ht rfl
    simp_all
  | d :: r, t =>
    rw [h, List.cons_append] at hstart hname
    by_cases hp : d = '%' <;> simp [hp, hstart, hname]

theorem numeric_length_le (s : List Char) : (numeric s).2 ≤ s.length := by
  have hle := Numeral.read_length (s := s)
  have hn := name_length_le 0 (s.drop (Numeral.read s).2)
  rw [List.length_drop] at hn
  simp only [numeric]
  split
  · rename_i heq
    have := congrArg List.length heq
    simp at this
    omega
  · split <;> simp <;> omega

theorem name_length_pos (hc : isNameChar c = true) (s : List Char) :
    0 < (name 0 (c :: s)).length := by
  have hb : (c == '\\') = false := by
    by_contra h
    simp at h
    subst c
    exact absurd hc (by decide)
  simp [name, hc, hb, Extent.cons]

end StyleFold.Token
