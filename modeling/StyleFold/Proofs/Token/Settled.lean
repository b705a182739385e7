import StyleFold.Proofs.Token.Extent

/-! A single token at the front of a text, read in the text alone and in a longer one. -/
namespace StyleFold.Token
open Text

variable {c : Char} {s t : List Char}

/-- Whether the token ends on its own account and not because the text does. -/
def isEnded : Token → List Char → Bool
  | .quoted _, mark :: body => body.getLast? == some mark
  | .url _, source | .badUrl _, source => source.getLast? == some ')'
  | .comment, source => ['*', '/'].isSuffixOf (source.drop 2)
  | _, _ => true

theorem isEnded_numeric (s source : List Char) : isEnded (numeric s).1 source = true := by
  simp only [numeric]
  split
  · rfl
  · split <;> rfl

theorem isEnded_tailOf_numeric (s source : List Char) :
    isEnded (tailOf (numeric s)).1 source = true :=
  isEnded_numeric s source

/-- What may stand behind a text so that the tokens of the text stay as they are. -/
structure Apart (s t : List Char) : Prop where
  fresh : startsApart t = true
  spaces : (∃ c ∈ s.getLast?, isSpace c = true) → t.takeWhile isSpace = []

theorem Apart.of_last (ht : startsApart t = true) (h : ∀ c ∈ s.getLast?, isSpace c = false) :
    Apart s t := by
  refine ⟨ht, ?_⟩
  rintro ⟨c, hc, hsp⟩
  rw [h c hc] at hsp
  contradiction

theorem urlAddress_isSome (hs : ∀ c ∈ s, isSpace c = true) (ht : startsApart t = true)
    (hsp : t.takeWhile isSpace = []) : (urlAddress (s ++ t)).isSome = true := by
  have hall : s.takeWhile isSpace = s := by
    rw [List.takeWhile_eq_self_iff]
    exact hs
  have hspan : spanLength isSpace (s ++ t) = s.length := by
    rw [spanLength_append_of_stop hsp, spanLength, hall]
  have hq : ∀ d r, t = d :: r → (d == '"' || d == '\'') = false := by
    rintro d r rfl
    have hdouble : d ≠ '"' := ne_of_startsApart ht rfl
    have hsingle : d ≠ '\'' := ne_of_startsApart ht rfl
    simp [hdouble, hsingle]
  simp only [urlAddress, hspan, List.drop_left]
  split
  · rfl
  · rename_i d r
    simp only [hq d r rfl, Bool.false_eq_true, if_false]
    split <;> rfl

theorem isEnded_of_isAddress {x : Token} (hx : isAddress x = true) (source : List Char) :
    isEnded x source = (source.getLast? == some ')') := by
  cases x <;> simp_all [isAddress, isEnded]

theorem nameLike_of_stop (h : ∀ c ∈ (s.drop (name 0 s).length).head?, c ≠ '(') :
    nameLike s = (.ident (name 0 s).content, (name 0 s).length) := by
  simp only [nameLike]
  split
  · rename_i heq
    rw [heq] at h
    exact absurd rfl (h '(' rfl)
  · rfl

theorem nameLike_of_function {r : List Char} (h : s.drop (name 0 s).length = '(' :: r)
    (hu : sameWord (name 0 s).content ['u', 'r', 'l'] = true → urlAddress r = none) :
    nameLike s = (.function (name 0 s).content, (name 0 s).length + 1) := by
  simp only [nameLike, h]
  split
  · rename_i hw
    rw [hu hw]
  · rfl

theorem nameLike_of_url {r : List Char} {x : Token × Nat}
    (h : s.drop (name 0 s).length = '(' :: r)
    (hu : sameWord (name 0 s).content ['u', 'r', 'l'] = true) (hx : urlAddress r = some x) :
    nameLike s = (x.1, (name 0 s).length + 1 + x.2) := by
  simp only [nameLike, h, hu, hx, if_true]

inductive Reading (s : List Char) : Prop
  | word (stop : ∀ c ∈ (s.drop (name 0 s).length).head?, c ≠ '(')
      (eq : nameLike s = (.ident (name 0 s).content, (name 0 s).length))
  | call {r : List Char} (bracket : s.drop (name 0 s).length = '(' :: r)
      (none : sameWord (name 0 s).content ['u', 'r', 'l'] = true → urlAddress r = none)
      (eq : nameLike s = (.function (name 0 s).content, (name 0 s).length + 1))
  | address {r : List Char} {x : Token × Nat} (bracket : s.drop (name 0 s).length = '(' :: r)
      (url : sameWord (name 0 s).content ['u', 'r', 'l'] = true) (some : urlAddress r = some x)
      (eq : nameLike s = (x.1, (name 0 s).length + 1 + x.2))

theorem reading (s : List Char) : Reading s := by
  by_cases hstop : ∀ c ∈ (s.drop (name 0 s).length).head?, c ≠ '('
  · exact .word hstop (nameLike_of_stop hstop)
  obtain ⟨r, hr⟩ : ∃ r, s.drop (name 0 s).length = '(' :: r := by
    cases h : s.drop (name 0 s).length <;> simp_all
  by_cases hu : sameWord (name 0 s).content ['u', 'r', 'l'] = true
  · cases hx : urlAddress r with
    | none => exact .call hr (fun _ => hx) (nameLike_of_function hr fun _ => hx)
    | some x => exact .address hr hu hx (nameLike_of_url hr hu hx)
  · have hnone (hw : sameWord (name 0 s).content ['u', 'r', 'l'] = true) : urlAddress r = none :=
      absurd hw hu
    exact .call hr hnone (nameLike_of_function hr hnone)

theorem drop_name_append (hs : '\\' ∉ s) (ht : startsApart t = true) :
    (s ++ t).drop (name 0 (s ++ t)).length = s.drop (name 0 s).length ++ t := by
  rw [name_append hs ht, List.drop_append_of_le_length (name_length_le 0 s)]

theorem nameLike_append {r : List Char} (hs : '\\' ∉ s) (ht : startsApart t = true)
    (hr : s.drop (name 0 s).length = '(' :: r)
    (h : sameWord (name 0 s).content ['u', 'r', 'l'] = true → urlAddress (r ++ t) = urlAddress r) :
    nameLike (s ++ t) = nameLike s := by
  simp only [nameLike, name_append hs ht, List.drop_append_of_le_length (name_length_le 0 s), hr,
    List.cons_append]
  split
  · rename_i hu
    rw [h hu]
  · rfl

/-- A bare address that runs to the end of the text goes on with the text, unless it is no address
there because of a quote. -/
theorem nameLike_running {a : Token} {r : List Char} (hs : '\\' ∉ s)
    (hr : s.drop (name 0 s).length = '(' :: r)
    (hu : sameWord (name 0 s).content ['u', 'r', 'l'] = true) (hlast : r.getLast? ≠ some ')')
    (ha : urlAddress r = some (a, r.length))
    (hmore : ∀ t, t ≠ [] → (∃ x, urlAddress (r ++ t) = some x ∧ r.length < x.2) ∨
      (urlAddress (r ++ t) = none ∧ ∀ c ∈ r, isSpace c = true)) :
    isEnded (nameLike s).1 (s.take (nameLike s).2) = false ∧ (nameLike s).2 = s.length ∧
      ∀ t, t ≠ [] → Apart s t → s.length < (nameLike (s ++ t)).2 ∨
        (nameLike (s ++ t)).2 = s.length ∧ (nameLike (s ++ t)).1.opens.isSome = true := by
  have hurl := nameLike_of_url hr hu ha
  have hlen := congrArg List.length hr
  rw [List.length_drop, List.length_cons] at hlen
  have hn : (name 0 s).length + 1 + r.length = s.length := by omega
  refine ⟨?_, by rw [hurl, ← hn], fun t hne ht => ?_⟩
  · rw [hurl, isEnded_of_isAddress (isAddress_of_urlAddress ha)]
    simp only [hn, List.take_length, getLast?_of_drop hr, List.getLast?_cons]
    cases hl : r.getLast? <;> simp_all
  have hword := name_append hs ht.fresh
  have hr' : (s ++ t).drop (name 0 (s ++ t)).length = '(' :: (r ++ t) := by
    rw [drop_name_append hs ht.fresh, hr, List.cons_append]
  obtain ⟨x, hx, hlt⟩ | ⟨hnone, hall⟩ := hmore t hne
  · left
    rw [nameLike_of_url hr' (by rwa [hword]) hx, hword]
    dsimp only
    omega
  · right
    rw [nameLike_of_function hr' fun _ => hnone, hword]
    refine ⟨?_, rfl⟩
    -- Behind spaces only a quote makes a function, and a quote does not stand apart.
    cases hl : r.getLast? with
    | none => simp_all
    | some q =>
      have hq : isSpace q = true := hall q (List.mem_of_getLast? hl)
      have hsp := ht.spaces ⟨q, by simp [getLast?_of_drop hr, List.getLast?_cons, hl], hq⟩
      have := urlAddress_isSome hall ht.fresh hsp
      simp [hnone] at this

theorem nameLike_cases (hs : '\\' ∉ s) :
    (isEnded (nameLike s).1 (s.take (nameLike s).2) = true ∧
        ∀ t, startsApart t = true → nameLike (s ++ t) = nameLike s) ∨
      (isEnded (nameLike s).1 (s.take (nameLike s).2) = false ∧ (nameLike s).2 = s.length ∧
        ∀ t, t ≠ [] → Apart s t → s.length < (nameLike (s ++ t)).2 ∨
          (nameLike (s ++ t)).2 = s.length ∧ (nameLike (s ++ t)).1.opens.isSome = true) := by
  have hplain {r} (hr : s.drop (name 0 s).length = '(' :: r) : '\\' ∉ r := fun hm =>
    hs (List.mem_of_mem_drop (hr ▸ List.mem_cons_of_mem _ hm))
  cases reading s with
  | word hstop heq =>
    refine .inl ⟨by rw [heq]; rfl, fun t ht => ?_⟩
    rw [heq, nameLike_of_stop, name_append hs ht]
    rw [drop_name_append hs ht]
    intro c hc
    cases hdrop : s.drop (name 0 s).length with
    | cons d r => exact hstop c (by simpa [hdrop] using hc)
    | nil =>
      cases t with
      | nil => simp [hdrop] at hc
      | cons d t =>
        obtain rfl : d = c := by simpa [hdrop] using hc
        exact ne_of_startsApart ht rfl
  | call hr hnone heq =>
    refine .inl ⟨by rw [heq]; rfl, fun t ht => nameLike_append hs ht hr fun hu => ?_⟩
    obtain ⟨-, hstable⟩ | ⟨-, ⟨a, ha⟩, -⟩ := urlAddress_cases (hplain hr)
    · exact hstable t
    · rw [hnone hu] at ha
      contradiction
  | @address r x hr hu hx heq =>
    obtain ⟨hend, hstable⟩ | ⟨hlast, ⟨a, ha⟩, hmore⟩ := urlAddress_cases (hplain hr)
    · refine .inl ⟨?_, fun t ht => nameLike_append hs ht hr fun _ => hstable t⟩
      rw [heq, isEnded_of_isAddress (isAddress_of_urlAddress hx), beq_iff_eq, Nat.add_assoc]
      apply getLast?_take_add
      rw [hr, Nat.add_comm, List.take_succ_cons, List.getLast?_cons, hend x hx]
      rfl
    · exact .inr (nameLike_running hs hr hu hlast ha hmore)

theorem commentOpen_append (ht : startsApart t = true) :
    ['!', '-', '-'].isPrefixOf (s ++ t) = ['!', '-', '-'].isPrefixOf s := by
  match s, t with
  | s, [] => rw [List.append_nil]
  | a :: b :: d :: s, t => rfl
  | [], d :: t =>
    by_cases hd : d = '!'
    · subst d
      simpa [startsApart] using ht
    · simp [List.isPrefixOf, Ne.symm hd]
  | [a], d :: t =>
    have hm : d ≠ '-' := ne_of_startsApart ht rfl
    simp [List.isPrefixOf, Ne.symm hm]
  | [a, b], d :: t =>
    have hm : d ≠ '-' := ne_of_startsApart ht rfl
    simp [List.isPrefixOf, Ne.symm hm]

theorem commentClose_append (ht : startsApart t = true) :
    ['-', '>'].isPrefixOf (s ++ t) = ['-', '>'].isPrefixOf s := by
  match s, t with
  | s, [] => rw [List.append_nil]
  | a :: b :: s, t => rfl
  | [], d :: t =>
    have hm : d ≠ '-' := ne_of_startsApart ht rfl
    simp [List.isPrefixOf, Ne.symm hm]
  | [a], d :: t =>
    have hm : d ≠ '>' := ne_of_startsApart ht rfl
    simp [List.isPrefixOf, Ne.symm hm]

theorem matchOperator_append (c : Char) (x : Token) (ht : startsApart t = true) :
    matchOperator c x (s ++ t) = matchOperator c x s := by
  match s, t with
  | s, [] => rw [List.append_nil]
  | [], d :: t =>
    have he : d ≠ '=' := ne_of_startsApart ht rfl
    simp [matchOperator, he]
  | d :: s, t =>
    by_cases hd : d = '=' <;> simp [matchOperator, hd]

theorem isEnded_matchOperator {x : Token} (hx : ∀ source, isEnded x source = true) (c : Char)
    (s source : List Char) : isEnded (matchOperator c x s).1 source = true := by
  rw [matchOperator.eq_def]
  split
  · exact hx source
  · rfl

theorem isEnded_ite {p : Prop} [Decidable p] {x y : Token × Nat} {source : List Char}
    (hx : isEnded x.1 source = true) (hy : isEnded y.1 source = true) :
    isEnded (if p then x else y).1 source = true := by
  split <;> assumption

theorem scan_mark_append (hsp : isSpace c = false) (hd : isDigit c = false)
    (hn : isNameStart c = false) (hc : c ∉ ['"', '\'', '/', '-', '\\'])
    (hs : '\\' ∉ s) (ht : startsApart t = true) : scan c (s ++ t) = scan c s := by
  rw [scan.eq_def, scan.eq_def]
  simp only [hsp, hd, hn, Bool.false_eq_true, if_false, commentOpen_append ht,
    startsName_append hs ht, name_append hs ht, matchOperator_append _ _ ht]
  split
  case h_3 =>
    match s, t with
    | s, [] => rw [List.append_nil]
    | [], d :: t =>
      obtain ⟨-, hd, hm⟩ := not_isNameChar (startsApart_cons ht).1
      simp [hd, hm]
    | d :: s, t => rfl
  case h_1 | h_2 | h_7 | h_8 | h_9 => simp at hc
  case h_5 | h_6 =>
    rw [← List.cons_append, Numeral.starts_append ht,
      numeric_append (List.not_mem_cons_of_ne_of_not_mem (by decide) hs) ht]
  all_goals rfl

theorem isEnded_scan_mark (hsp : isSpace c = false) (hd : isDigit c = false)
    (hn : isNameStart c = false) (hc : c ∉ ['"', '\'', '/', '-', '\\']) (s source : List Char) :
    isEnded (scan c s).1 source = true := by
  rw [scan.eq_def]
  simp only [hsp, hd, hn, Bool.false_eq_true, if_false]
  split
  case h_3 => exact isEnded_ite rfl (by split <;> first | rfl | exact isEnded_ite rfl rfl)
  case h_4 | h_10 => exact isEnded_ite rfl rfl
  case h_5 | h_6 => exact isEnded_ite (isEnded_tailOf_numeric ..) rfl
  case h_1 | h_2 | h_7 | h_8 | h_9 => simp at hc
  case h_11 | h_12 | h_13 | h_14 | h_15 => exact isEnded_matchOperator (fun _ => rfl) ..
  all_goals rfl

theorem scan_space (h : isSpace c = true) (s : List Char) :
    scan c s = (.whitespace, spanLength isSpace s) := by
  simp [scan, h]

theorem not_isSpace_of_isNameChar (h : isNameChar c = true) : isSpace c = false := by
  by_contra hs
  simp only [isSpace, isNewline, Bool.not_eq_false, Bool.or_eq_true, beq_iff_eq] at hs
  rcases hs with (rfl | rfl) | (rfl | rfl) | rfl <;> exact absurd h (by decide)

theorem not_isDigit_of_isNameStart (h : isNameStart c = true) : isDigit c = false := by
  by_contra hd
  simp only [isDigit, Bool.not_eq_false, Bool.and_eq_true, decide_eq_true_eq, Char.le_def,
    UInt32.le_iff_toNat_le] at hd
  simp only [isNameStart, isLetter, isAscii, Bool.or_eq_true, Bool.and_eq_true, decide_eq_true_eq,
    Char.le_def, UInt32.le_iff_toNat_le, Bool.not_eq_true', decide_eq_false_iff_not,
    beq_iff_eq] at h
  rcases h with (((h | h) | rfl) | rfl) | h
  · simp at h hd; omega
  · simp at h hd; omega
  · simp at hd
  · simp at hd
  · simp at h hd; omega

theorem scan_digit (h : isDigit c = true) (s : List Char) :
    scan c s = tailOf (numeric (c :: s)) := by
  simp [scan, h, not_isSpace_of_isNameChar (isNameChar_of_isDigit h)]

theorem scan_nameStart (h : isNameStart c = true) (s : List Char) :
    scan c s = tailOf (nameLike (c :: s)) := by
  simp [scan, h, not_isSpace_of_isNameChar (isNameChar_of_isNameStart h),
    not_isDigit_of_isNameStart h]

theorem nameLike_length_pos (hc : isNameChar c = true) (s : List Char) :
    0 < (nameLike (c :: s)).2 := by
  have hpos := name_length_pos hc s
  cases reading (c :: s) with
  | word _ heq | call _ _ heq | address _ _ _ heq =>
    rw [heq]
    dsimp only
    omega

/-- The token has come to its end before or at the end of the text, whatever follows. -/
def Settled (c : Char) (s : List Char) : Prop :=
  isEnded (scan c s).1 (c :: s.take (scan c s).2) = true ∧
    ∀ t, Apart (c :: s) t → scan c (s ++ t) = scan c s

/-- The token takes all of the text, and more of it where the text goes on. A string that a newline
breaks off and an address whose quotes begin only there are the exceptions. -/
def Running (c : Char) (s : List Char) : Prop :=
  isEnded (scan c s).1 (c :: s.take (scan c s).2) = false ∧ (scan c s).2 = s.length ∧
    ∀ t, t ≠ [] → Apart (c :: s) t → s.length < (scan c (s ++ t)).2 ∨
      (scan c (s ++ t)).2 = s.length ∧ ((scan c (s ++ t)).1.opens.isSome = true ∨
        ∃ w, (scan c (s ++ t)).1 = .badQuoted w)

theorem settled_or_running_nameLike (hc : isNameChar c = true) (hs : '\\' ∉ c :: s)
    (h : ∀ t, startsApart t = true → scan c (s ++ t) = tailOf (nameLike (c :: (s ++ t)))) :
    Settled c s ∨ Running c s := by
  have h0 : scan c s = tailOf (nameLike (c :: s)) := by simpa using h [] rfl
  have hsource : c :: s.take (scan c s).2 = (c :: s).take (nameLike (c :: s)).2 := by
    obtain ⟨n, hn⟩ := Nat.exists_eq_succ_of_ne_zero (nameLike_length_pos hc s).ne'
    rw [h0, tailOf, hn]
    simp
  obtain ⟨hend, hstable⟩ | ⟨hend, hlen, hmore⟩ := nameLike_cases hs
  · refine .inl ⟨by rw [hsource, h0]; exact hend, fun t ht => ?_⟩
    rw [h t ht.fresh, h0, ← List.cons_append, hstable t ht.fresh]
  · refine .inr ⟨by rw [hsource, h0]; exact hend, by rw [h0, tailOf, hlen]; simp,
      fun t hne ht => ?_⟩
    have := hmore t hne ht
    rw [h t ht.fresh, tailOf, ← List.cons_append]
    simp only [List.length_cons] at this
    dsimp only
    rcases this with hlt | ⟨heq, hopen⟩
    · exact .inl (by omega)
    · exact .inr ⟨by omega, .inl hopen⟩

theorem scan_quote (hq : c = '"' ∨ c = '\'') (s : List Char) :
    scan c s = (if (stringBody c 0 s).good then .quoted (stringBody c 0 s).content
      else .badQuoted (stringBody c 0 s).content, (stringBody c 0 s).length) := by
  obtain rfl | rfl := hq <;> rfl

theorem settled_or_running_quote (hq : c = '"' ∨ c = '\'') (hs : '\\' ∉ s) :
    Settled c s ∨ Running c s := by
  rw [Settled, Running]
  simp only [scan_quote hq]
  obtain ⟨hend, hstable⟩ | ⟨hg, hmem, hlen, hmore⟩ := stringBody_cases hs
  · refine .inl ⟨?_, fun t _ => by rw [hstable]⟩
    cases hg : (stringBody c 0 s).good with
    | true => simpa [isEnded] using hend hg
    | false => simp [isEnded]
  · refine .inr ⟨?_, hlen, fun t hne _ => ?_⟩
    · have hlast : s.getLast? ≠ some c := fun h => hmem (List.mem_of_getLast? h)
      simpa [hg, hlen, isEnded] using hlast
    · obtain ⟨hle, hlt⟩ := hmore t hne
      cases hg : (stringBody c 0 (s ++ t)).good with
      | true => exact .inl (hlt hg)
      | false =>
        rcases hle.lt_or_eq with h | h
        · exact .inl h
        · exact .inr ⟨h.symm, .inr ⟨_, rfl⟩⟩

theorem scan_slash (hc : c ≠ '*') (s : List Char) : scan '/' (c :: s) = (.delim '/', 0) := by
  have hsp : isSpace '/' = false := by decide
  have hd : isDigit '/' = false := by decide
  have hn : isNameStart '/' = false := by decide
  simp [scan, hsp, hd, hn, hc]

theorem scan_comment (s : List Char) :
    scan '/' ('*' :: s) = (.comment, 1 + commentLength s) :=
  rfl

theorem settled_or_running_slash (s : List Char) : Settled '/' s ∨ Running '/' s := by
  cases s with
  | nil =>
    refine .inl ⟨rfl, fun t ht => ?_⟩
    cases t with
    | nil => rfl
    | cons d t =>
      exact scan_slash (ne_of_startsApart ht.fresh rfl) t
  | cons d r =>
    by_cases hd : d = '*'
    · subst d
      rw [Settled, Running]
      simp only [scan_comment, List.cons_append]
      obtain ⟨hend, hstable⟩ | ⟨hend, hlen, hmore⟩ := commentLength_cases r
      · left
        refine ⟨?_, fun t _ => by rw [hstable]⟩
        simpa [isEnded, Nat.add_comm 1] using hend
      · right
        refine ⟨?_, by simp [hlen, Nat.add_comm], fun t hne _ => .inl ?_⟩
        · rw [← Bool.not_eq_true]
          simpa [isEnded, Nat.add_comm 1, hlen] using hend
        · have := hmore t hne
          simp only [List.length_cons]
          omega
    · exact .inl ⟨by rw [scan_slash hd]; rfl, fun t _ => by
        rw [List.cons_append, scan_slash hd, scan_slash hd]⟩

theorem scan_hyphen (s : List Char) : scan '-' s =
    if Numeral.starts ('-' :: s) then tailOf (numeric ('-' :: s))
    else if ['-', '>'].isPrefixOf s then (.commentClose, 2)
    else if startsName ('-' :: s) then tailOf (nameLike ('-' :: s))
    else (.delim '-', 0) :=
  rfl

theorem settled_or_running_hyphen (hs : '\\' ∉ '-' :: s) : Settled '-' s ∨ Running '-' s := by
  have hstarts (t) (ht : startsApart t = true) :
      Numeral.starts ('-' :: (s ++ t)) = Numeral.starts ('-' :: s) :=
    Numeral.starts_append (s := '-' :: s) ht
  have hname (t) (ht : startsApart t = true) :
      startsName ('-' :: (s ++ t)) = startsName ('-' :: s) :=
    startsName_append (s := '-' :: s) hs ht
  by_cases hnum : Numeral.starts ('-' :: s) = true
  · refine .inl ⟨?_, fun t ht => ?_⟩
    · rw [scan_hyphen, if_pos hnum]
      exact isEnded_tailOf_numeric ..
    · rw [scan_hyphen, scan_hyphen, hstarts t ht.fresh, if_pos hnum, if_pos hnum,
        ← List.cons_append, numeric_append hs ht.fresh]
  by_cases hclose : ['-', '>'].isPrefixOf s = true
  · refine .inl ⟨?_, fun t ht => ?_⟩
    · rw [scan_hyphen, if_neg hnum, if_pos hclose]
      rfl
    · rw [scan_hyphen, scan_hyphen, hstarts t ht.fresh, commentClose_append ht.fresh,
        if_neg hnum, if_pos hclose, if_neg hnum, if_pos hclose]
  by_cases hstart : startsName ('-' :: s) = true
  · refine settled_or_running_nameLike (by decide) hs fun t ht => ?_
    rw [scan_hyphen, hstarts t ht, commentClose_append ht, hname t ht,
      if_neg hnum, if_neg hclose, if_pos hstart]
  · refine .inl ⟨?_, fun t ht => ?_⟩
    · rw [scan_hyphen, if_neg hnum, if_neg hclose, if_neg hstart]
      rfl
    · rw [scan_hyphen, scan_hyphen, hstarts t ht.fresh, commentClose_append ht.fresh,
        hname t ht.fresh, if_neg hnum, if_neg hclose, if_neg hstart, if_neg hnum, if_neg hclose,
        if_neg hstart]

theorem settled_or_running (hs : '\\' ∉ c :: s) : Settled c s ∨ Running c s := by
  have hs' := List.not_mem_of_not_mem_cons hs
  by_cases hsp : isSpace c = true
  · left
    refine ⟨by rw [scan_space hsp]; rfl, fun t ht => ?_⟩
    rw [scan_space hsp, scan_space hsp]
    cases h : s.drop (spanLength isSpace s) with
    | nil =>
      have hlast : ∃ d ∈ (c :: s).getLast?, isSpace d = true := by
        rw [List.getLast?_cons]
        cases hl : s.getLast? with
        | none => exact ⟨c, rfl, hsp⟩
        | some d => exact ⟨d, rfl, all_of_drop_nil h d (List.mem_of_getLast? hl)⟩
      rw [spanLength_append_of_stop (ht.spaces hlast)]
    | cons d r => rw [spanLength_append_of_drop h]
  by_cases hd : isDigit c = true
  · left
    refine ⟨by rw [scan_digit hd]; exact isEnded_tailOf_numeric .., fun t ht => ?_⟩
    rw [scan_digit hd, scan_digit hd, ← List.cons_append, numeric_append hs ht.fresh]
  by_cases hn : isNameStart c = true
  · exact settled_or_running_nameLike (isNameChar_of_isNameStart hn) hs fun t _ =>
      scan_nameStart hn _
  rw [Bool.not_eq_true] at hsp hd hn
  by_cases hc : c ∈ ['"', '\'', '/', '-', '\\']
  · simp only [List.mem_cons, List.not_mem_nil, or_false] at hc
    rcases hc with hq | hq | rfl | rfl | rfl
    · exact settled_or_running_quote (.inl hq) hs'
    · exact settled_or_running_quote (.inr hq) hs'
    · exact settled_or_running_slash s
    · exact settled_or_running_hyphen hs
    · simp at hs
  · left
    exact ⟨isEnded_scan_mark hsp hd hn hc .., fun t ht =>
      scan_mark_append hsp hd hn hc hs' ht.fresh⟩

theorem nameLike_length_le (s : List Char) : (nameLike s).2 ≤ s.length := by
  have hle := name_length_le 0 s
  have hlen {r} (hr : s.drop (name 0 s).length = '(' :: r) :
      s.length - (name 0 s).length = r.length + 1 := by
    rw [← List.length_drop, hr, List.length_cons]
  cases reading s with
  | word _ heq =>
    rw [heq]
    exact hle
  | call hr _ heq =>
    have := hlen hr
    rw [heq]
    dsimp only
    omega
  | address hr _ hx heq =>
    have := hlen hr
    have := urlAddress_length_le hx
    rw [heq]
    dsimp only
    omega

theorem matchOperator_length_le (c : Char) (x : Token) (s : List Char) :
    (matchOperator c x s).2 ≤ s.length := by
  rw [matchOperator.eq_def]
  split <;> simp

theorem tailOf_length_le {x : Token × Nat} (h : x.2 ≤ (c :: s).length) :
    (tailOf x).2 ≤ s.length := by
  simp only [tailOf, List.length_cons] at *
  omega

theorem ite_length_le {p : Prop} [Decidable p] {x y : Token × Nat} (hx : p → x.2 ≤ s.length)
    (hy : y.2 ≤ s.length) : (if p then x else y).2 ≤ s.length := by
  split
  · exact hx ‹_›
  · exact hy

theorem length_le_of_isPrefixOf {u s : List Char} (h : u.isPrefixOf s = true) :
    u.length ≤ s.length := by
  have hfront : u <+: s := List.isPrefixOf_iff_prefix.mp h
  exact hfront.length_le

theorem scan_length_le (c : Char) (s : List Char) : (scan c s).2 ≤ s.length := by
  have hnum (c) : (tailOf (numeric (c :: s))).2 ≤ s.length :=
    tailOf_length_le (numeric_length_le (c :: s))
  have hlike (c) : (tailOf (nameLike (c :: s))).2 ≤ s.length :=
    tailOf_length_le (nameLike_length_le (c :: s))
  rw [scan.eq_def]
  refine ite_length_le (fun _ => spanLength_le isSpace s) (ite_length_le (fun _ => hnum c)
    (ite_length_le (fun _ => hlike c) ?_))
  split
  case h_1 | h_2 => exact stringBody_length_le ..
  case h_3 =>
    refine ite_length_le (fun _ => name_length_le 0 s) ?_
    split
    · exact ite_length_le (fun _ => name_length_le 0 _) (Nat.zero_le _)
    · exact Nat.zero_le _
  case h_4 => exact ite_length_le (fun _ => name_length_le 0 s) (Nat.zero_le _)
  case h_5 | h_6 => exact ite_length_le (fun _ => hnum _) (Nat.zero_le _)
  case h_7 =>
    exact ite_length_le (fun _ => hnum _) (ite_length_le length_le_of_isPrefixOf
      (ite_length_le (fun _ => hlike _) (Nat.zero_le _)))
  case h_8 => exact ite_length_le (fun _ => hlike _) (Nat.zero_le _)
  case h_9 =>
    split
    · rename_i r
      have := commentLength_le r
      simp only [List.length_cons]
      omega
    · exact Nat.zero_le _
  case h_10 =>
    exact ite_length_le length_le_of_isPrefixOf (Nat.zero_le _)
  case h_11 | h_12 | h_13 | h_14 | h_15 => exact matchOperator_length_le ..
  all_goals exact Nat.zero_le _

end StyleFold.Token
