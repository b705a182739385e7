import StyleFold.Proofs.Token.Settled

/-! How each token is spelled in a text without backslashes. -/
namespace StyleFold.Token
open Text

variable {c : Char} {s : List Char}

def isNumeralChar (c : Char) : Bool :=
  isDigit c || ['+', '-', '.', 'e', 'E'].contains c

def isWordChar (c : Char) : Bool :=
  isNameChar c || ['#', '@', '+', '.', '%'].contains c

def isDelim (c : Char) : Bool :=
  !isSpace c && !([';', ':', ',', '(', '[', '\x7b', ')', ']', '\x7d', '"', '\''].contains c)

def spelling? : Token → Option (List Char)
  | .colon => some [':']
  | .semicolon => some [';']
  | .comma => some [',']
  | .includeMatch => some ['~', '=']
  | .dashMatch => some ['|', '=']
  | .prefixMatch => some ['^', '=']
  | .suffixMatch => some ['$', '=']
  | .substringMatch => some ['*', '=']
  | .commentOpen => some ['<', '!', '-', '-']
  | .commentClose => some ['-', '-', '>']
  | .opening .round => some ['(']
  | .opening .square => some ['[']
  | .opening .curly => some ['{']
  | .closing .round => some [')']
  | .closing .square => some [']']
  | .closing .curly => some ['}']
  | _ => none

def isTextual : Token → Bool
  | .quoted _ | .badQuoted _ | .url _ | .badUrl _ | .comment => true
  | _ => false

/-- The sources that a token can have. -/
def Spelled : Token → List Char → Prop
  | .whitespace, w => ∀ c ∈ w, isSpace c = true
  | .ident name, w => (∀ c ∈ w, isNameChar c = true) ∧ name = w.map clean
  | .function name, w => ∃ v, w = v ++ ['('] ∧ (∀ c ∈ v, isNameChar c = true) ∧ name = v.map clean
  | .comment, w => ['/', '*'] <+: w
  | .atKeyword _, w | .hash _, w | .idHash _, w | .number _, w | .percentage _, w
  | .dimension _ _, w => ∀ c ∈ w, isWordChar c = true
  | .quoted _, w | .badQuoted _, w => ∃ mark body, w = mark :: body ∧ (mark = '"' ∨ mark = '\'')
  | .url _, w | .badUrl _, w => '(' ∈ w
  | .delim c, w => w = [c] ∧ isDelim c = true
  | t, w => t.spelling? = some w

theorem isWordChar_of_isNameChar (h : isNameChar c = true) : isWordChar c = true := by
  simp [isWordChar, h]

theorem not_isSpace_of_isWordChar (h : isWordChar c = true) : isSpace c = false := by
  simp only [isWordChar, Bool.or_eq_true, List.contains_iff_mem, List.mem_cons, List.not_mem_nil,
    or_false] at h
  obtain h | rfl | rfl | rfl | rfl | rfl := h
  · exact not_isSpace_of_isNameChar h
  all_goals decide

theorem isWordChar_of_isNumeralChar (h : isNumeralChar c = true) : isWordChar c = true := by
  simp only [isNumeralChar, Bool.or_eq_true, List.contains_iff_mem, List.mem_cons,
    List.not_mem_nil, or_false] at h
  obtain h | rfl | rfl | rfl | rfl | rfl := h
  · exact isWordChar_of_isNameChar (isNameChar_of_isDigit h)
  all_goals decide

theorem name_eq (hs : '\\' ∉ s) :
    name 0 s = ⟨(s.takeWhile isNameChar).map clean, true, (s.takeWhile isNameChar).length⟩ := by
  induction s with
  | nil => rfl
  | cons c s ih =>
    have hc : (c == '\\') = false := by simpa using (List.ne_of_not_mem_cons hs).symm
    have ih := ih (List.not_mem_of_not_mem_cons hs)
    cases h : isNameChar c <;> simp [name, hc, h, ih, Extent.stop, Extent.cons]

theorem take_name_length (hs : '\\' ∉ s) : s.take (name 0 s).length = s.takeWhile isNameChar := by
  rw [name_eq hs]
  exact take_spanLength isNameChar s

theorem isNameChar_of_mem_take (hs : '\\' ∉ s) (h : c ∈ s.take (name 0 s).length) :
    isNameChar c = true := by
  rw [take_name_length hs] at h
  exact List.mem_takeWhile_imp h

end StyleFold.Token

namespace StyleFold.Numeral
open Text Token

variable {c : Char} {s : List Char}

theorem mem_take_takeWhile {p : Char → Bool} (h : c ∈ s.take (s.takeWhile p).length) :
    p c = true := by
  rw [← spanLength, take_spanLength] at h
  exact List.mem_takeWhile_imp h

theorem isNumeralChar_of_isDigit (h : isDigit c = true) : isNumeralChar c = true := by
  simp [isNumeralChar, h]

theorem isNumeralChar_of_mem_sign
    (h : c ∈ s.take (if (readSign s).isSome then 1 else 0)) : isNumeralChar c = true := by
  rw [readSign.eq_def] at h
  split at h <;> simp at h
  all_goals
    subst c
    decide

theorem isNumeralChar_of_mem_fraction
    (h : c ∈ s.take (if (readFraction s).isEmpty then 0 else 1 + (readFraction s).length)) :
    isNumeralChar c = true := by
  rw [readFraction.eq_def] at h
  split at h
  · rename_i r
    split at h
    · simp at h
    · rw [Nat.add_comm, List.take_succ_cons] at h
      obtain rfl | h := List.mem_cons.mp h
      · decide
      · exact isNumeralChar_of_isDigit (mem_take_takeWhile h)
  · simp at h

theorem isNumeralChar_of_mem_exponent (h : c ∈ s.take (readExponent s).2) :
    isNumeralChar c = true := by
  cases s with
  | nil => simp at h
  | cons e s =>
    by_cases he : (e == 'e' || e == 'E') = true
    · simp only [readExponent, he, if_true] at h
      generalize hk : (if (readSign s).isSome then 1 else 0) = k at h
      by_cases hd : ((s.drop k).takeWhile isDigit).isEmpty = true
      · simp [hd] at h
      · simp only [hd, Bool.false_eq_true, if_false] at h
        rw [Nat.add_assoc, Nat.add_comm 1, List.take_succ_cons, List.take_add] at h
        obtain rfl | h := List.mem_cons.mp h
        · obtain rfl | rfl : c = 'e' ∨ c = 'E' := by simpa using he
          all_goals decide
        · obtain h | h := List.mem_append.mp h
          · exact isNumeralChar_of_mem_sign (hk ▸ h)
          · exact isNumeralChar_of_isDigit (mem_take_takeWhile h)
    · simp [readExponent, he] at h

theorem isNumeralChar_of_mem_read (h : c ∈ s.take (read s).2) : isNumeralChar c = true := by
  have hsum (b : Bool) (n k : Nat) :
      (if b = true then n else n + 1 + k) = n + if b = true then 0 else 1 + k := by
    cases b <;> simp [Nat.add_assoc]
  simp only [read] at h
  rw [hsum, List.take_add, List.take_add, List.take_add, List.mem_append, List.mem_append,
    List.mem_append] at h
  obtain ((h | h) | h) | h := h
  · exact isNumeralChar_of_mem_sign h
  · exact isNumeralChar_of_isDigit (mem_take_takeWhile h)
  · exact isNumeralChar_of_mem_fraction h
  · exact isNumeralChar_of_mem_exponent h

end StyleFold.Numeral

namespace StyleFold.Token
open Text

variable {c : Char} {s : List Char}

theorem spelled_numeric (hs : '\\' ∉ s) : Spelled (numeric s).1 (s.take (numeric s).2) := by
  have hd : '\\' ∉ s.drop (Numeral.read s).2 := fun h => hs (List.mem_of_mem_drop h)
  have hread (c) (h : c ∈ s.take (Numeral.read s).2) : isWordChar c = true :=
    isWordChar_of_isNumeralChar (Numeral.isNumeralChar_of_mem_read h)
  simp only [numeric]
  split
  · rename_i r heq
    intro c hc
    rw [List.take_add, heq, List.take_succ_cons, List.take_zero] at hc
    obtain hc | hc := List.mem_append.mp hc
    · exact hread c hc
    · rw [List.mem_singleton.mp hc]
      decide
  · split
    · intro c hc
      rw [List.take_add] at hc
      obtain hc | hc := List.mem_append.mp hc
      · exact hread c hc
      · exact isWordChar_of_isNameChar (isNameChar_of_mem_take hd hc)
    · exact hread

theorem spelled_of_isAddress {x : Token} {w : List Char} (hx : isAddress x = true)
    (hw : '(' ∈ w) : Spelled x w := by
  cases x <;> simp_all [isAddress, Spelled]

theorem spelled_nameLike (hs : '\\' ∉ s) : Spelled (nameLike s).1 (s.take (nameLike s).2) := by
  have hname (c) (h : c ∈ s.take (name 0 s).length) : isNameChar c = true :=
    isNameChar_of_mem_take hs h
  have hcontent : (name 0 s).content = (s.take (name 0 s).length).map clean := by
    rw [take_name_length hs, name_eq hs]
  cases reading s with
  | word _ heq =>
    rw [heq]
    exact ⟨hname, hcontent⟩
  | call hr _ heq =>
    rw [heq]
    refine ⟨s.take (name 0 s).length, ?_, hname, hcontent⟩
    rw [List.take_add, hr, List.take_succ_cons, List.take_zero]
  | address hr _ hx heq =>
    have haddress := isAddress_of_urlAddress hx
    rw [heq]
    refine spelled_of_isAddress haddress ?_
    rw [Nat.add_assoc, List.take_add, hr, Nat.add_comm, List.take_succ_cons]
    exact List.mem_append_right _ List.mem_cons_self

theorem spelled_tailOf {x : Token × Nat} (hx : 0 < x.2) (h : Spelled x.1 ((c :: s).take x.2)) :
    Spelled (tailOf x).1 (c :: s.take (tailOf x).2) := by
  obtain ⟨n, hn⟩ := Nat.exists_eq_succ_of_ne_zero hx.ne'
  simpa [tailOf, hn] using h

theorem spelled_ite {p : Prop} [Decidable p] {x y : Token × Nat}
    (hx : p → Spelled x.1 (c :: s.take x.2)) (hy : Spelled y.1 (c :: s.take y.2)) :
    Spelled (if p then x else y).1 (c :: s.take (if p then x else y).2) := by
  split
  · exact hx ‹_›
  · exact hy

theorem spelled_delim (hc : isDelim c = true) (s : List Char) :
    Spelled (Token.delim c, 0).1 (c :: s.take (Token.delim c, 0).2) :=
  ⟨rfl, hc⟩

theorem spelled_matchOperator {x : Token} (hc : isDelim c = true) (hx : Spelled x [c, '='])
    (s : List Char) : Spelled (matchOperator c x s).1 (c :: s.take (matchOperator c x s).2) := by
  rw [matchOperator.eq_def]
  split
  · exact hx
  · exact ⟨rfl, hc⟩

theorem isWordChar_of_mem_cons_name (hc : isWordChar c = true) (hs : '\\' ∉ s) :
    ∀ d ∈ c :: s.take (name 0 s).length, isWordChar d = true :=
  List.forall_mem_cons.mpr
    ⟨hc, fun _ h => isWordChar_of_isNameChar (isNameChar_of_mem_take hs h)⟩

theorem spelled_tailOf_numeric (hc : isWordChar c = true) (hs : '\\' ∉ c :: s) :
    Spelled (tailOf (numeric (c :: s))).1 (c :: s.take (tailOf (numeric (c :: s))).2) := by
  have h := spelled_numeric hs
  rcases hn : numeric (c :: s) with ⟨x, n⟩
  rw [hn] at h
  cases n with
  | succ n => exact spelled_tailOf (Nat.succ_pos n) h
  | zero =>
    have hx : (numeric (c :: s)).1 = x := by rw [hn]
    simp only [numeric] at hx
    have hw : ∀ d ∈ [c], isWordChar d = true := by simpa using hc
    split at hx
    · subst hx
      exact hw
    · split at hx <;> subst hx <;> exact hw

theorem scan_spelled (hs : '\\' ∉ c :: s) :
    Spelled (scan c s).1 (c :: s.take (scan c s).2) := by
  have hs' := List.not_mem_of_not_mem_cons hs
  have hlike (hc : isNameChar c = true) :
      Spelled (tailOf (nameLike (c :: s))).1 (c :: s.take (tailOf (nameLike (c :: s))).2) :=
    spelled_tailOf (nameLike_length_pos hc s) (spelled_nameLike hs)
  have hword (h : isWordChar c = true) := isWordChar_of_mem_cons_name h hs'
  by_cases hsp : isSpace c = true
  · rw [scan_space hsp]
    exact List.forall_mem_cons.mpr ⟨hsp, fun d hd => Numeral.mem_take_takeWhile hd⟩
  rw [scan.eq_def, if_neg hsp]
  refine spelled_ite (fun h => ?_) (spelled_ite (fun h => ?_) ?_)
  · exact spelled_tailOf_numeric (isWordChar_of_isNameChar (isNameChar_of_isDigit h)) hs
  · exact hlike (isNameChar_of_isNameStart h)
  split
  case h_1 | h_2 =>
    dsimp only
    split <;> exact ⟨_, _, rfl, by simp⟩
  case h_3 =>
    refine spelled_ite (fun _ => hword (by decide)) ?_
    split
    · exact spelled_ite (fun _ => hword (by decide)) (spelled_delim (by decide) _)
    · exact spelled_delim (by decide) _
  case h_4 => exact spelled_ite (fun _ => hword (by decide)) (spelled_delim (by decide) s)
  case h_5 | h_6 =>
    exact spelled_ite (fun _ => spelled_tailOf_numeric (by decide) hs)
      (spelled_delim (by decide) s)
  case h_7 =>
    refine spelled_ite (fun _ => spelled_tailOf_numeric (by decide) hs) (spelled_ite (fun h => ?_)
      (spelled_ite (fun _ => hlike (by decide)) (spelled_delim (by decide) s)))
    obtain ⟨r, rfl⟩ := List.isPrefixOf_iff_prefix.mp h
    rfl
  case h_8 => simp at hs
  case h_9 =>
    split
    · rw [Nat.add_comm, List.take_succ_cons]
      exact ⟨_, rfl⟩
    · exact spelled_delim (by decide) s
  case h_10 =>
    refine spelled_ite (fun h => ?_) (spelled_delim (by decide) s)
    obtain ⟨r, rfl⟩ := List.isPrefixOf_iff_prefix.mp h
    rfl
  case h_11 | h_12 | h_13 | h_14 | h_15 =>
    refine spelled_matchOperator (by decide) ?_ s
    rfl
  case h_16 | h_17 | h_18 | h_19 | h_20 | h_21 | h_22 | h_23 | h_24 => rfl
  case h_25 => exact spelled_delim (by simp_all [isDelim]) s

/-- A character that is neither a space nor a part of words or of calls is a mark of its own or belongs
to a token with a fixed spelling. -/
theorem mark_of_mem {t : Token} {w : List Char} (h : Spelled t w) (ht : isTextual t = false)
    (hc : c ∈ w) (hsp : isSpace c = false) (hw : isWordChar c = false) (hopen : c ≠ '(') :
    t = .delim c ∧ isDelim c = true ∨ t.spelling? = some w := by
  have hword (h : ∀ d ∈ w, isWordChar d = true) : False := by simp [h c hc] at hw
  cases t with
  | whitespace => simp [h c hc] at hsp
  | ident => exact (hword fun d hd => isWordChar_of_isNameChar (h.1 d hd)).elim
  | function =>
    obtain ⟨v, rfl, hv, -⟩ := h
    obtain hc | hc := List.mem_append.mp hc
    · rw [isWordChar_of_isNameChar (hv c hc)] at hw
      contradiction
    · exact absurd (List.mem_singleton.mp hc) hopen
  | atKeyword | hash | idHash | number | percentage | dimension => exact (hword h).elim
  | delim d =>
    obtain ⟨rfl, hd⟩ := h
    obtain rfl := List.mem_singleton.mp hc
    exact .inl ⟨rfl, hd⟩
  | quoted | badQuoted | url | badUrl | comment => simp [isTextual] at ht
  | opening b | closing b => cases b <;> exact .inr h
  | _ => exact .inr h

theorem eq_semicolon_of_mem {t : Token} {w : List Char} (h : Spelled t w)
    (ht : isTextual t = false) (hc : ';' ∈ w) : t = .semicolon := by
  obtain ⟨-, hd⟩ | hw := mark_of_mem h ht hc (by decide) (by decide) (by decide)
  · exact absurd hd (by decide)
  · cases t <;> simp only [spelling?, Option.some.injEq, reduceCtorEq] at hw
    case opening b | closing b => cases b <;> simp at hw <;> subst hw <;> simp at hc
    all_goals subst hw; simp at hc ⊢

theorem eq_bang_of_mem {t : Token} {w : List Char} (h : Spelled t w)
    (ht : isTextual t = false) (hc : '!' ∈ w) :
    t = .delim '!' ∨ w = ['<', '!', '-', '-'] := by
  obtain ⟨rfl, -⟩ | hw := mark_of_mem h ht hc (by decide) (by decide) (by decide)
  · exact .inl rfl
  · cases t <;> simp only [spelling?, Option.some.injEq, reduceCtorEq] at hw
    case opening b | closing b => cases b <;> simp at hw <;> subst hw <;> simp at hc
    all_goals subst hw; simp at hc ⊢

theorem getLast?_of_isTextual {t : Token} {w : List Char} (h : Spelled t w)
    (he : isEnded t w = true) (ht : isTextual t = true) (hb : ∀ u, t ≠ .badQuoted u) :
    ∃ mark ∈ ['"', '\'', ')', '/'], w.getLast? = some mark := by
  cases t with
  | badQuoted u => exact absurd rfl (hb u)
  | quoted u =>
    obtain ⟨mark, body, rfl, hm⟩ := h
    have hlast : body.getLast? = some mark := by simpa [isEnded] using he
    refine ⟨mark, by obtain rfl | rfl := hm <;> simp, ?_⟩
    rw [List.getLast?_cons, hlast]
    rfl
  | url | badUrl => exact ⟨')', by simp, by simpa [isEnded] using he⟩
  | comment =>
    obtain ⟨r, hr⟩ := List.isSuffixOf_iff_suffix.mp he
    have hlast : (w.drop 2).getLast? = some '/' := by
      rw [← hr, List.getLast?_append]
      rfl
    rw [List.getLast?_drop] at hlast
    split at hlast
    · contradiction
    · exact ⟨'/', by simp, hlast⟩
  | _ => contradiction

theorem not_isSpace_of_getLast? {t : Token} {w : List Char} (h : Spelled t w)
    (he : isEnded t w = true) (ht : t ≠ .whitespace) (hb : ∀ u, t ≠ .badQuoted u)
    (hc : c ∈ w.getLast?) : isSpace c = false := by
  have hmem := List.mem_of_getLast? hc
  by_cases htext : isTextual t = true
  · obtain ⟨mark, hmark, hlast⟩ := getLast?_of_isTextual h he htext hb
    obtain rfl : mark = c := by simpa [hlast] using hc
    simp only [List.mem_cons, List.not_mem_nil, or_false] at hmark
    obtain rfl | rfl | rfl | rfl := hmark <;> decide
  cases t with
  | whitespace => contradiction
  | quoted | badQuoted | url | badUrl | comment => exact absurd rfl htext
  | ident => exact not_isSpace_of_isNameChar (h.1 c hmem)
  | function =>
    obtain ⟨v, rfl, -⟩ := h
    rw [List.getLast?_concat] at hc
    cases hc
    decide
  | atKeyword | hash | idHash | number | percentage | dimension =>
    exact not_isSpace_of_isWordChar (h c hmem)
  | delim d =>
    obtain ⟨rfl, hd⟩ := h
    obtain rfl := List.mem_singleton.mp hmem
    simp only [isDelim, Bool.and_eq_true, Bool.not_eq_true'] at hd
    exact hd.1
  | opening b | closing b =>
    cases b <;>
    · cases h
      cases hc
      decide
  | _ =>
    cases h
    cases hc
    decide

theorem map_clean_eq {w : List Char} (h : replacement ∉ w.map clean) : w.map clean = w := by
  refine (List.map_congr_left fun c hc => ?_).trans (List.map_id _)
  have hne : clean c ≠ replacement := fun he => h (List.mem_map.mpr ⟨c, hc, he⟩)
  by_cases hz : c = '\x00'
  · exact absurd (by simp [clean, hz]) hne
  · simp [clean, hz]

end StyleFold.Token
