import StyleFold.Proofs.Token.Settled

/-!
Names, strings and addresses, with escapes in them, in a text that is cut off. What ends before the
cut is read as before. At the cut itself a backslash in front of a newline becomes an escape, and the
cut ends a string that the newline breaks off.
-/
namespace StyleFold.Token
open Text

variable {c q : Char} {k : Nat} {s t : List Char}

theorem spaceLength_le (s : List Char) : spaceLength s ≤ s.length := by
  rw [spaceLength.eq_def]
  split
  · simp
  · split <;> simp
  · simp

theorem spaceLength_cons (c : Char) (s : List Char) : spaceLength (c :: s) =
    if c = '\r' ∧ s.head? = some '\n' then 2 else if isSpace c then 1 else 0 := by
  by_cases h : c = '\r' ∧ s.head? = some '\n'
  · rw [if_pos h]
    obtain ⟨rfl, hs⟩ := h
    cases s with
    | nil => simp at hs
    | cons d s =>
      obtain rfl : d = '\n' := by simpa using hs
      rfl
  · rw [if_neg h, spaceLength]
    rintro r rfl rfl
    exact h ⟨rfl, rfl⟩

theorem spaceLength_append (h : spaceLength (s ++ t) ≤ s.length) :
    spaceLength (s ++ t) = spaceLength s := by
  cases s with
  | nil => simpa [spaceLength] using h
  | cons c s =>
    rw [List.cons_append, spaceLength_cons] at h ⊢
    rw [spaceLength_cons]
    cases s with
    | cons d s => rfl
    | nil =>
      have hpair : ¬(c = '\r' ∧ ([] ++ t).head? = some '\n') := by
        intro hp
        rw [if_pos hp] at h
        simp at h
      have hnone : ¬(c = '\r' ∧ ([] : List Char).head? = some '\n') := by simp
      rw [if_neg hpair, if_neg hnone]

theorem takeWhile_take_append {p : Char → Bool} (h : t.takeWhile p = []) (n : Nat) :
    ((s ++ t).take n).takeWhile p = (s.take n).takeWhile p := by
  have hstop : (t.take (n - s.length)).takeWhile p = [] := by
    cases t with
    | nil => simp
    | cons d t =>
      have hd : p d = false := by simpa using h
      cases n - s.length <;> simp [hd]
  rw [List.take_append, takeWhile_append_of_stop hstop]

theorem isNameChar_of_isHexDigit (h : isHexDigit c = true) : isNameChar c = true := by
  simp only [isHexDigit, Bool.or_eq_true, Bool.and_eq_true, decide_eq_true_eq] at h
  simp only [isNameChar, isNameStart, isLetter, Bool.or_eq_true, Bool.and_eq_true,
    decide_eq_true_eq]
  obtain (hd | hl) | hu := h
  · exact .inl (.inr hd)
  · exact .inl (.inl (.inl (.inl (.inl (.inl ⟨hl.1, hl.2.trans (by decide)⟩)))))
  · exact .inl (.inl (.inl (.inl (.inl (.inr ⟨hu.1, hu.2.trans (by decide)⟩)))))

theorem escape_length_le (s : List Char) : (escape s).2 ≤ s.length := by
  cases s with
  | nil => simp [escape]
  | cons c s =>
    have hdigits : (((c :: s).take 6).takeWhile isHexDigit).length ≤ (c :: s).length :=
      (spanLength_le isHexDigit _).trans (List.length_take_le' ..)
    have hspace := spaceLength_le ((c :: s).drop (((c :: s).take 6).takeWhile isHexDigit).length)
    rw [List.length_drop] at hspace
    rw [escape.eq_def]
    dsimp only
    split
    · dsimp only
      omega
    · simp

theorem escape_length_pos (c : Char) (s : List Char) : 0 < (escape (c :: s)).2 := by
  by_cases hc : isHexDigit c = true
  · simp [escape, hc]
  · simp [escape, hc]

theorem escape_append (hs : s ≠ []) (ht : startsApart t = true)
    (h : (escape (s ++ t)).2 ≤ s.length) : escape (s ++ t) = escape s := by
  obtain ⟨c, s, rfl⟩ := List.exists_cons_of_ne_nil hs
  by_cases hc : isHexDigit c = true
  · have hstop : t.takeWhile isHexDigit = [] :=
      takeWhile_of_startsApart ht fun _ => isNameChar_of_isHexDigit
    have hdigits : (((c :: s) ++ t).take 6).takeWhile isHexDigit =
        ((c :: s).take 6).takeWhile isHexDigit := takeWhile_take_append hstop 6
    have hle : (((c :: s).take 6).takeWhile isHexDigit).length ≤ (c :: s).length :=
      (spanLength_le isHexDigit _).trans (List.length_take_le' ..)
    rw [List.cons_append] at h hdigits ⊢
    simp only [escape, hc, if_true, hdigits] at h ⊢
    rw [← List.cons_append, List.drop_append_of_le_length hle] at h ⊢
    rw [spaceLength_append]
    rw [List.length_drop]
    omega
  · simp [escape, hc]

theorem startsNewline_append (hs : s ≠ []) (t : List Char) :
    startsNewline (s ++ t) = startsNewline s := by
  obtain ⟨c, s, rfl⟩ := List.exists_cons_of_ne_nil hs
  rfl

theorem le_length_of_skip {f : Nat → List Char → Extent}
    (hf : ∀ k c s, f (k + 1) (c :: s) = (f k s).skip) (h : k ≤ s.length) :
    k ≤ (f k s).length := by
  induction s generalizing k with
  | nil => simp_all
  | cons c s ih =>
    cases k with
    | zero => exact Nat.zero_le _
    | succ k =>
      have := ih (Nat.le_of_succ_le_succ h)
      simp only [hf, Extent.skip]
      omega

theorem escape_append_of_skip {f : Nat → List Char → Extent}
    (hf : ∀ k c s, f (k + 1) (c :: s) = (f k s).skip) (hs : s ≠ []) (ht : startsApart t = true)
    (h : (f (escape (s ++ t)).2 (s ++ t)).length ≤ s.length) : escape (s ++ t) = escape s :=
  escape_append hs ht ((le_length_of_skip hf (escape_length_le (s ++ t))).trans h)

theorem length_pos_of_skip {f : Nat → List Char → Extent}
    (hf : ∀ k c s, f (k + 1) (c :: s) = (f k s).skip) (c : Char) (s : List Char) :
    0 < (f (escape (c :: s)).2 (c :: s)).length :=
  (escape_length_pos c s).trans_le (le_length_of_skip hf (escape_length_le (c :: s)))

/-- A name that ends before the cut is read as before, unless a backslash stands right at the cut,
which begins an escape where nothing follows it. -/
theorem name_cut (ht : startsApart t = true) (hk : k ≤ s.length)
    (h : (name k (s ++ t)).length ≤ s.length) : name k s = name k (s ++ t) ∨
      (name k s).length = s.length ∧ s.drop (name k (s ++ t)).length = ['\\'] := by
  induction s generalizing k with
  | nil =>
    obtain rfl : k = 0 := by simpa using hk
    have hlength : (name 0 t).length = 0 := by simpa using h
    cases t with
    | nil => exact .inl rfl
    | cons d t =>
      have hb : d ≠ '\\' := ne_of_startsApart ht rfl
      exact .inl (by simp [name, (startsApart_cons ht).1, hb])
  | cons c s ih =>
    cases k with
    | succ k =>
      have hk := Nat.le_of_succ_le_succ hk
      simp only [List.cons_append, name, Extent.skip, List.length_cons, Nat.add_le_add_iff_right,
        List.drop_succ_cons, Nat.add_right_cancel_iff] at h ⊢
      exact (ih hk h).imp_left fun heq => by rw [heq]
    | zero =>
      by_cases hb : (c == '\\') = true
      · obtain rfl : c = '\\' := by simpa using hb
        by_cases hs : s = []
        · -- The backslash is the last character before the cut.
          subst hs
          cases t with
          | nil => exact .inl rfl
          | cons d t =>
            by_cases hn : startsNewline (d :: t) = true
            · exact .inr ⟨by simp [name, escape, startsNewline, Extent.stop, Extent.cons],
                by simp [name, hn, Extent.stop]⟩
            · have hpos := length_pos_of_skip (f := name) (fun _ _ _ => rfl) d t
              simp only [List.nil_append, List.cons_append, name, beq_self_eq_true, if_true, hn,
                Bool.false_eq_true, if_false, Extent.cons, List.length_singleton] at h
              omega
        · have hline := startsNewline_append hs t
          by_cases hn : startsNewline s = true
          · exact .inl (by simp [name, hline, hn])
          · simp only [List.cons_append, name, beq_self_eq_true, if_true, hline, hn,
              Bool.false_eq_true, if_false, Extent.cons, List.length_cons,
              Nat.add_le_add_iff_right, List.drop_succ_cons, Nat.add_right_cancel_iff] at h ⊢
            have hescape := escape_append_of_skip (f := name) (fun _ _ _ => rfl) hs ht h
            rw [hescape] at h ⊢
            exact (ih (escape_length_le s) h).imp_left fun heq => by rw [heq]
      · by_cases hc : isNameChar c = true
        · simp only [List.cons_append, name, hb, hc, Bool.false_eq_true, if_false, if_true,
            Extent.cons, List.length_cons, Nat.add_le_add_iff_right, List.drop_succ_cons,
            Nat.add_right_cancel_iff] at h ⊢
          exact (ih (Nat.zero_le _) h).imp_left fun heq => by rw [heq]
        · exact .inl (by simp [name, hb, hc])

/-- A string that ends before the cut is read as before. One that the newline at the cut breaks off
is ended by the cut instead. -/
theorem stringBody_cut (ht : startsApart t = true) (hk : k ≤ s.length)
    (h : (stringBody q k (s ++ t)).length ≤ s.length) :
    stringBody q k s = stringBody q k (s ++ t) ∨ (stringBody q k s).length = s.length := by
  induction s generalizing k with
  | nil => exact .inr (Nat.le_zero.mp (stringBody_length_le q k []))
  | cons c s ih =>
    cases k with
    | succ k =>
      have hk := Nat.le_of_succ_le_succ hk
      simp only [List.cons_append, stringBody, Extent.skip, List.length_cons,
        Nat.add_le_add_iff_right, Nat.add_right_cancel_iff] at h ⊢
      exact (ih hk h).imp_left fun heq => by rw [heq]
    | zero =>
      by_cases hq : (c == q) = true
      · exact .inl (by simp [stringBody, hq])
      by_cases hn : isNewline c = true
      · exact .inl (by simp [stringBody, hq, hn])
      by_cases hb : (c == '\\') = true
      · by_cases hs : s = []
        · subst hs
          exact .inr (by simp [stringBody, hq, hn, hb, Extent.stop])
        · have hline := startsNewline_append hs t
          have hempty : (s ++ t).isEmpty = false := by simp [hs]
          have hempty' : s.isEmpty = false := by simp [hs]
          simp only [List.cons_append, stringBody, hq, hn, hb, hempty, hempty', hline,
            Bool.false_eq_true, if_false, if_true] at h ⊢
          by_cases hs' : startsNewline s = true
          · simp only [hs', if_true, Extent.skip, List.length_cons, Nat.add_le_add_iff_right,
              Nat.add_right_cancel_iff] at h ⊢
            have hle := le_length_of_skip (f := stringBody q) (fun _ _ _ => rfl)
              (spaceLength_le (s ++ t))
            have hspace := spaceLength_append (hle.trans h)
            rw [hspace] at h ⊢
            exact (ih (spaceLength_le s) h).imp_left fun heq => by rw [heq]
          · simp only [hs', Bool.false_eq_true, if_false, Extent.cons, List.length_cons,
              Nat.add_le_add_iff_right, Nat.add_right_cancel_iff] at h ⊢
            have hescape :=
              escape_append_of_skip (f := stringBody q) (fun _ _ _ => rfl) hs ht h
            rw [hescape] at h ⊢
            exact (ih (escape_length_le s) h).imp_left fun heq => by rw [heq]
      · simp only [List.cons_append, stringBody, hq, hn, hb, Bool.false_eq_true, if_false,
          Extent.cons, List.length_cons, Nat.add_le_add_iff_right, Nat.add_right_cancel_iff] at h ⊢
        exact (ih (Nat.zero_le _) h).imp_left fun heq => by rw [heq]

theorem urlEnd_cut (hne : t ≠ []) (h : (urlEnd (s ++ t)).length ≤ s.length) :
    urlEnd s = urlEnd (s ++ t) := by
  obtain ⟨-, hstable⟩ | ⟨-, -, -, hmore⟩ := urlEnd_cases s
  · exact (hstable t).symm
  · exact absurd h (Nat.not_le.mpr (hmore t hne))

/-- An address that ends before the cut is read as before, unless a newline behind the cut spoils
it. -/
theorem urlBody_cut (ht : startsApart t = true) (hne : t ≠ []) (hk : k ≤ s.length)
    (h : (urlBody k (s ++ t)).length ≤ s.length) : urlBody k s = urlBody k (s ++ t) ∨
      (urlBody k (s ++ t)).good = false ∧ (urlBody k (s ++ t)).length = s.length := by
  obtain ⟨e, u, rfl⟩ := List.exists_cons_of_ne_nil hne
  induction s generalizing k with
  | nil =>
    obtain rfl : k = 0 := by simpa using hk
    exact absurd h (Nat.not_le.mpr (urlBody_length_pos e u))
  | cons c s ih =>
    cases k with
    | succ k =>
      have hk := Nat.le_of_succ_le_succ hk
      simp only [List.cons_append, urlBody, Extent.skip, List.length_cons,
        Nat.add_le_add_iff_right, Nat.add_right_cancel_iff] at h ⊢
      exact (ih hk h).imp_left fun heq => by rw [heq]
    | zero =>
      by_cases hp : (c == ')') = true
      · exact .inl (by simp [urlBody, hp])
      by_cases hw : isSpace c = true
      · simp only [List.cons_append, urlBody, hp, hw, Bool.false_eq_true, if_false, if_true,
          Extent.skip, List.length_cons, Nat.add_le_add_iff_right] at h ⊢
        exact .inl (by rw [urlEnd_cut hne h])
      by_cases hr : isUrlBreaker c = true
      · exact .inl (by simp [urlBody, hp, hw, hr])
      by_cases hb : (c == '\\') = true
      · by_cases hs : s = []
        · subst hs
          by_cases hn : startsNewline (e :: u) = true
          · exact .inr (by simp [urlBody, hp, hw, hr, hb, hn, Extent.stop])
          · have hpos := length_pos_of_skip (f := urlBody) (fun _ _ _ => rfl) e u
            simp only [List.nil_append, List.cons_append, urlBody, hp, hw, hr, hb, hn,
              Bool.false_eq_true, if_false, if_true, Extent.cons, List.length_singleton] at h
            omega
        · have hline := startsNewline_append hs (e :: u)
          by_cases hn : startsNewline s = true
          · exact .inl (by simp [urlBody, hp, hw, hr, hb, hline, hn])
          · simp only [List.cons_append, urlBody, hp, hw, hr, hb, hline, hn, Bool.false_eq_true,
              if_false, if_true, Extent.cons, List.length_cons, Nat.add_le_add_iff_right,
              Nat.add_right_cancel_iff] at h ⊢
            have hescape := escape_append_of_skip (f := urlBody) (fun _ _ _ => rfl) hs ht h
            rw [hescape] at h ⊢
            exact (ih (escape_length_le s) h).imp_left fun heq => by rw [heq]
      · simp only [List.cons_append, urlBody, hp, hw, hr, hb, Bool.false_eq_true, if_false,
          Extent.cons, List.length_cons, Nat.add_le_add_iff_right, Nat.add_right_cancel_iff] at h ⊢
        exact (ih (Nat.zero_le _) h).imp_left fun heq => by rw [heq]

theorem spoiltLength_backslash (c : Char) (s : List Char) : spoiltLength ('\\' :: c :: s) =
    if c = ')' ∨ c = '\\' then spoiltLength s + 2 else spoiltLength (c :: s) + 1 := by
  by_cases hp : c = ')'
  · subst hp
    rfl
  · by_cases hb : c = '\\'
    · subst hb
      rfl
    · rw [if_neg (by simp [hp, hb]), spoiltLength]
      all_goals simp_all

theorem spoilt_length_pos (c : Char) (s : List Char) :
    0 < spoiltLength (c :: s) + closeLength ((c :: s).drop (spoiltLength (c :: s))) := by
  by_cases hp : c = ')'
  · subst hp
    exact Nat.one_pos
  · have hpos : 0 < spoiltLength (c :: s) := by
      rw [spoiltLength.eq_def]
      split <;> simp_all
    omega

theorem spoilt_cut (e : Char) (u s : List Char)
    (h : spoiltLength (s ++ e :: u) +
      closeLength ((s ++ e :: u).drop (spoiltLength (s ++ e :: u))) ≤ s.length) :
    spoiltLength s = spoiltLength (s ++ e :: u) ∧
      closeLength (s.drop (spoiltLength (s ++ e :: u))) =
        closeLength ((s ++ e :: u).drop (spoiltLength (s ++ e :: u))) := by
  fun_induction spoiltLength s with
  | case1 => exact absurd h (Nat.not_le.mpr (spoilt_length_pos e u))
  | case2 s => exact ⟨rfl, rfl⟩
  | case3 s ih | case4 s ih =>
    simp only [List.cons_append, spoiltLength, List.drop_succ_cons, List.length_cons] at h ⊢
    have ih := ih (by omega)
    exact ⟨by rw [ih.1], ih.2⟩
  | case5 c s hp hround hback ih =>
    have hstep : spoiltLength (c :: (s ++ e :: u)) = spoiltLength (s ++ e :: u) + 1 := by
      by_cases hb : c = '\\'
      · subst hb
        cases s with
        | nil =>
          have hpos := spoilt_length_pos e u
          simp only [List.cons_append, List.nil_append, spoiltLength_backslash,
            List.length_singleton] at h ⊢
          split at h
          · omega
          · rw [List.drop_succ_cons] at h
            omega
        | cons d s =>
          have hd : ¬(d = ')' ∨ d = '\\') := by
            rintro (rfl | rfl)
            · exact hround s rfl rfl
            · exact hback s rfl rfl
          rw [List.cons_append, spoiltLength_backslash, if_neg hd]
      · exact spoiltLength_cons hb hp _
    simp only [List.cons_append, hstep, List.drop_succ_cons, List.length_cons] at h ⊢
    have ih := ih (by omega)
    exact ⟨by rw [ih.1], ih.2⟩

theorem badUrl_cut {r : List Char} (ht : startsApart t = true) (hne : t ≠ [])
    (hdrop : s.drop (spanLength isSpace s) = c :: r) (hq : (c == '"' || c == '\'') = false)
    (hg : (urlBody 0 (c :: (r ++ t))).good = false)
    (h : ∀ x, urlAddress (s ++ t) = some x → x.2 ≤ s.length) :
    urlAddress s = urlAddress (s ++ t) := by
  obtain ⟨e, v, rfl⟩ := List.exists_cons_of_ne_nil hne
  have hlead := spanLength_add_length_drop isSpace s
  rw [hdrop] at hlead
  obtain ⟨x, hx, hbody⟩ := urlAddress_of_not_quote (drop_spanLength_append hdrop (e :: v)) hq
  have hle := h x hx
  rw [spanLength_append_of_drop hdrop] at hbody
  obtain heq | ⟨-, hlen⟩ := urlBody_cut (s := c :: r) (k := 0) ht hne (Nat.zero_le _) (by
    rw [List.cons_append]
    omega)
  · have hm := urlBody_length_le 0 (c :: r)
    rw [List.cons_append] at heq
    obtain ⟨u, hu⟩ : ∃ u, (c :: r).drop (urlBody 0 (c :: r)).length = u := ⟨_, rfl⟩
    have hrest : (c :: (r ++ e :: v)).drop (urlBody 0 (c :: (r ++ e :: v))).length = u ++ e :: v := by
      rw [← heq, ← List.cons_append, List.drop_append_of_le_length hm, hu]
    have hlong := urlAddress_of_bad (drop_spanLength_append hdrop (e :: v)) hq hg hrest
    have hlen := congrArg List.length hu
    rw [List.length_drop] at hlen
    rw [hlong] at hx
    cases hx
    rw [← heq, spanLength_append_of_drop hdrop] at hle hlong
    obtain ⟨hsp, hclose⟩ := spoilt_cut e v u (by
      dsimp only at hle
      omega)
    have := spoiltLength_le u
    rw [hlong, urlAddress_of_bad hdrop hq (by rw [heq, hg]) hu, ← hclose, ← hsp, ← List.cons_append,
      List.take_append_of_le_length (by omega)]
  · -- What spoils the address stands behind the cut, and a spoilt address takes it in.
    have hrest : (c :: (r ++ e :: v)).drop (urlBody 0 (c :: (r ++ e :: v))).length = e :: v := by
      rw [← List.cons_append, hlen, List.drop_left]
    rw [urlAddress_of_bad (drop_spanLength_append hdrop (e :: v)) hq hg hrest] at hx
    cases hx
    have hpos := spoilt_length_pos e v
    rw [List.cons_append] at hlen
    rw [hlen, spanLength_append_of_drop hdrop] at hle
    dsimp only at hle
    omega

/-- An address that ends before the cut is read as before. What is no address because of the quote
behind its spaces may become one, where the cut takes the quote away. -/
theorem urlAddress_cut (ht : startsApart t = true) (hne : t ≠ [])
    (h : ∀ x, urlAddress (s ++ t) = some x → x.2 ≤ s.length) :
    urlAddress s = urlAddress (s ++ t) ∨
      urlAddress (s ++ t) = none ∧ ∀ c ∈ s, isSpace c = true := by
  cases hdrop : s.drop (spanLength isSpace s) with
  | nil =>
    cases hx : urlAddress (s ++ t) with
    | none => exact .inr ⟨rfl, all_of_drop_nil hdrop⟩
    | some x => exact absurd (h x hx) (Nat.not_le.mpr (urlAddress_length_lt hdrop hne hx))
  | cons c r =>
    have hdrop' := drop_spanLength_append hdrop t
    left
    by_cases hq : (c == '"' || c == '\'') = true
    · simp [urlAddress, hdrop, hdrop', hq]
    rw [Bool.not_eq_true] at hq
    cases hg : (urlBody 0 (c :: (r ++ t))).good with
    | false => exact badUrl_cut ht hne hdrop hq hg h
    | true =>
      have hlead := spanLength_add_length_drop isSpace s
      rw [hdrop] at hlead
      have hx := urlAddress_of_good hdrop' hq hg
      have hle := h _ hx
      rw [spanLength_append_of_drop hdrop] at hle hx
      have hbody := urlBody_cut (s := c :: r) (k := 0) ht hne (Nat.zero_le _) (by
        rw [List.cons_append]
        dsimp only at hle
        omega)
      rw [List.cons_append, hg] at hbody
      have heq := hbody.resolve_right (by simp)
      rw [hx, urlAddress_of_good hdrop hq (by rw [heq, hg]), heq]

end StyleFold.Token
