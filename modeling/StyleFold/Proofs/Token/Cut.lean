import StyleFold.Proofs.Token.Escape

/-!
A text cut off behind some of its tokens. Where what is cut off stands apart, every token that ends
before the cut is read as before, but for one at the cut, which may take in all that is left, and for
a call whose argument is left blank.
-/
namespace StyleFold.Token
open Text

variable {c : Char} {s t : List Char}

/-- What may be read instead of the token `x` at the front of a text, where the text is cut off
behind its first part `s` and the token ends before the cut. -/
inductive CutOff (s : List Char) (x : Token × Nat) : Token × Nat → Prop
  | same : CutOff s x x
  | whole {y : Token × Nat} (length : y.2 = s.length) (solid : y.1.isTrivia = false) : CutOff s x y
  | bare {y : Token × Nat} (opens : x.1.opens.isSome = true)
      (spaces : ∀ c ∈ s.drop x.2, isSpace c = true) : CutOff s x y

theorem isTrivia_of_isAddress {x : Token} (h : isAddress x = true) : x.isTrivia = false := by
  cases x <;> first | rfl | simp [isAddress] at h

theorem isTrivia_nameLike (s : List Char) : (nameLike s).1.isTrivia = false := by
  cases reading s with
  | word _ heq | call _ _ heq =>
    rw [heq]
    rfl
  | address _ _ hx heq =>
    have haddress := isAddress_of_urlAddress hx
    rw [heq]
    exact isTrivia_of_isAddress haddress

theorem isTrivia_numeric (s : List Char) : (numeric s).1.isTrivia = false := by
  simp only [numeric]
  split
  · rfl
  · split <;> rfl

theorem name_length_le_nameLike (s : List Char) : (name 0 s).length ≤ (nameLike s).2 := by
  cases reading s with
  | word _ heq => rw [heq]
  | call _ _ heq | address _ _ _ heq =>
    rw [heq]
    dsimp only
    omega

theorem bracket_of_append {u r : List Char} (ht : startsApart t = true)
    (h : u ++ t = '(' :: r) : ∃ v, u = '(' :: v ∧ r = v ++ t := by
  cases u with
  | nil =>
    subst h
    exact absurd rfl (ne_of_startsApart (c := '(') ht rfl)
  | cons d u =>
    obtain ⟨rfl, rfl⟩ := List.cons.inj h
    exact ⟨u, rfl, rfl⟩

theorem nameLike_cut (ht : startsApart t = true) (hne : t ≠ [])
    (h : (nameLike (s ++ t)).2 ≤ s.length) : CutOff s (nameLike (s ++ t)) (nameLike s) := by
  have hword := (name_length_le_nameLike (s ++ t)).trans h
  have hdrop : (s ++ t).drop (name 0 (s ++ t)).length = s.drop (name 0 (s ++ t)).length ++ t :=
    List.drop_append_of_le_length hword
  cases name_cut ht (Nat.zero_le _) hword with
  | inr hcut =>
    -- The name takes in the backslash at the cut, and no bracket is left behind it.
    refine .whole ?_ (isTrivia_nameLike s)
    rw [nameLike_of_stop (by simp [hcut.1]), hcut.1]
  | inl heq =>
    cases reading (s ++ t) with
    | word hstop hlong =>
      have hshort : ∀ c ∈ (s.drop (name 0 s).length).head?, c ≠ '(' := fun c hc =>
        hstop c (by rw [hdrop, ← heq, List.head?_append, Option.mem_def.mp hc]; rfl)
      rw [hlong, nameLike_of_stop hshort, heq]
      exact .same
    | call hcall hnone hlong =>
      rw [hdrop, ← heq] at hcall
      obtain ⟨r, hr, rfl⟩ := bracket_of_append ht hcall
      by_cases hu : sameWord (name 0 s).content ['u', 'r', 'l'] = true
      · have hx := hnone (heq ▸ hu)
        obtain haddress | ⟨-, hspaces⟩ := urlAddress_cut (s := r) ht hne (by simp [hx])
        · rw [hlong, nameLike_of_function hr fun _ => haddress.trans hx, heq]
          exact .same
        · refine .bare (by rw [hlong]; rfl) ?_
          rw [hlong, ← heq]
          dsimp only
          rw [← List.drop_drop, hr]
          exact hspaces
      · rw [hlong, nameLike_of_function hr fun hw => absurd hw hu, heq]
        exact .same
    | address hcall hu hx hlong =>
      rw [hdrop, ← heq] at hcall
      obtain ⟨r, hr, rfl⟩ := bracket_of_append ht hcall
      have hlength := congrArg List.length hr
      rw [List.length_drop, List.length_cons] at hlength
      rw [hlong, ← heq] at h
      dsimp only at h
      have haddress := (urlAddress_cut ht hne (by
        rw [hx]
        rintro x ⟨⟩
        omega)).resolve_right (by simp [hx])
      rw [hlong, nameLike_of_url hr (heq ▸ hu) (haddress.trans hx), heq]
      exact .same

/-- Behind the cut no name begins. A backslash right at the cut begins one where nothing follows
it. -/
theorem startsName_cut (ht : startsApart t = true) :
    startsName (s ++ t) = startsName s ∨ s = ['\\'] ∧ startsName (s ++ t) = false := by
  by_cases hs : '\\' ∈ s
  · obtain ⟨c, s, rfl⟩ := List.exists_cons_of_ne_nil (List.ne_nil_of_mem hs)
    by_cases hm : c = '-'
    · subst hm
      cases s with
      | nil => simp at hs
      | cons d s => exact .inl rfl
    by_cases hb : c = '\\'
    · subst hb
      cases s with
      | cons d s => exact .inl rfl
      | nil =>
        have hcut : startsName (['\\'] ++ t) = !startsNewline t := rfl
        cases hn : startsNewline t with
        | true => exact .inr ⟨rfl, by rw [hcut, hn]; rfl⟩
        | false => exact .inl (by rw [hcut, hn]; rfl)
    · left
      rw [List.cons_append, startsName_cons hm hb, startsName_cons hm hb]
  · exact .inl (startsName_append hs ht)

/-- A token that takes in a name where one begins, and something else where none does. -/
theorem CutOff.name {f : Extent → Token × Nat} {p q : Token × Nat} {n : Nat} {w : List Char}
    (ht : startsApart t = true) (hw : w.length = n + s.length)
    (hlength : ∀ e, (f e).2 = n + e.length) (hsolid : ∀ e, (f e).1.isTrivia = false)
    (hpq : startsName (s ++ t) = false → p.2 ≤ w.length → startsName s = false → CutOff w p q)
    (h : (if startsName (s ++ t) then f (Token.name 0 (s ++ t)) else p).2 ≤ w.length) :
    CutOff w (if startsName (s ++ t) then f (Token.name 0 (s ++ t)) else p)
      (if startsName s then f (Token.name 0 s) else q) := by
  obtain heq | ⟨rfl, hfalse⟩ := startsName_cut (s := s) ht
  · rw [heq] at h hpq ⊢
    cases hs : startsName s with
    | false =>
      simp only [hs, Bool.false_eq_true, if_false] at h ⊢
      exact hpq hs h hs
    | true =>
      simp only [hs, if_true] at h ⊢
      rw [hlength, hw] at h
      obtain hname | ⟨hname, -⟩ := name_cut ht (Nat.zero_le _) (Nat.le_of_add_le_add_left h)
      · rw [hname]
        exact .same
      · exact .whole (by rw [hlength, hname, hw]) (hsolid _)
  · have hstart : startsName ['\\'] = true := rfl
    rw [hstart, if_pos rfl]
    exact .whole (by rw [hw, hlength]; rfl) (hsolid _)

theorem numeric_cut (ht : startsApart t = true) (h : (numeric (s ++ t)).2 ≤ s.length) :
    CutOff s (numeric (s ++ t)) (numeric s) := by
  have hle := Numeral.read_length (s := s)
  have hread : Numeral.read (s ++ t) = Numeral.read s := Numeral.read_append ht
  generalize hr : s.drop (Numeral.read s).2 = r
  have hdrop : (s ++ t).drop (Numeral.read s).2 = r ++ t := by
    rw [List.drop_append_of_le_length hle, hr]
  have hlength := congrArg List.length hr
  rw [List.length_drop] at hlength
  have hpercent : (∃ u, r ++ t = '%' :: u) ↔ ∃ u, r = '%' :: u := by
    cases r with
    | cons d r => simp
    | nil =>
      have hd : ∀ u, t ≠ '%' :: u := by
        rintro u rfl
        exact absurd rfl (ne_of_startsApart (c := '%') ht rfl)
      simp [hd]
  have hnumeric (u : List Char) (hu : ¬∃ v, u.drop (Numeral.read u).2 = '%' :: v) : numeric u =
      if startsName (u.drop (Numeral.read u).2) then
        (fun e => (.dimension (Numeral.read u).1 e.content, (Numeral.read u).2 + e.length))
          (name 0 (u.drop (Numeral.read u).2))
      else (.number (Numeral.read u).1, (Numeral.read u).2) := by
    simp only [numeric]
    split
    · rename_i v hv
      exact absurd ⟨v, hv⟩ hu
    · rfl
  -- What stands apart begins neither a percent sign nor a unit.
  by_cases hp : ∃ u, r = '%' :: u
  · obtain ⟨u, hu⟩ := hp
    have hsame : numeric (s ++ t) = numeric s := by
      simp only [numeric, hread, hdrop, hr, hu, List.cons_append]
    rw [hsame]
    exact .same
  · have hlong := hnumeric (s ++ t) (by rwa [hread, hdrop, hpercent])
    have hshort := hnumeric s (by rwa [hr])
    rw [hread, hdrop] at hlong
    rw [hr] at hshort
    rw [hlong] at h ⊢
    rw [hshort]
    have hw : s.length = (Numeral.read s).2 + r.length := by omega
    exact CutOff.name (f := fun e => (.dimension (Numeral.read s).1 e.content,
      (Numeral.read s).2 + e.length)) ht hw (fun _ => rfl) (fun _ => rfl) (fun _ _ _ => .same) h

theorem CutOff.tailOf {x y : Token × Nat} (h : CutOff (c :: s) x y) :
    CutOff s (tailOf x) (tailOf y) := by
  cases h with
  | same => exact .same
  | whole length solid =>
    refine .whole ?_ solid
    rw [Token.tailOf, length]
    rfl
  | bare opens spaces =>
    refine .bare opens fun d hd => spaces d ?_
    cases hx : x.2 with
    | zero => exact List.mem_cons_of_mem _ (List.mem_of_mem_drop hd)
    | succ n => simpa [Token.tailOf, hx] using hd

theorem tailOf_numeric_cut (ht : startsApart t = true)
    (h : (tailOf (numeric (c :: (s ++ t)))).2 ≤ s.length) :
    CutOff s (tailOf (numeric (c :: (s ++ t)))) (tailOf (numeric (c :: s))) := by
  refine CutOff.tailOf (numeric_cut (s := c :: s) ht ?_)
  simp only [tailOf, List.cons_append, List.length_cons] at h ⊢
  omega

theorem tailOf_nameLike_cut (ht : startsApart t = true) (hne : t ≠ [])
    (h : (tailOf (nameLike (c :: (s ++ t)))).2 ≤ s.length) :
    CutOff s (tailOf (nameLike (c :: (s ++ t)))) (tailOf (nameLike (c :: s))) := by
  refine CutOff.tailOf (nameLike_cut (s := c :: s) ht hne ?_)
  simp only [tailOf, List.cons_append, List.length_cons] at h ⊢
  omega

theorem scan_space_cut (hc : isSpace c = true) (h : (scan c (s ++ t)).2 ≤ s.length) :
    scan c (s ++ t) = scan c s := by
  rw [scan_space hc] at h ⊢
  rw [scan_space hc]
  cases hdrop : s.drop (spanLength isSpace s) with
  | cons d r => rw [spanLength_append_of_drop hdrop]
  | nil =>
    have hlong := spanLength_append_of_drop_nil hdrop t
    have hshort := spanLength_of_drop_nil hdrop
    dsimp only at h
    congr 1
    omega

theorem scan_quote_cut (hq : c = '"' ∨ c = '\'') (ht : startsApart t = true)
    (h : (scan c (s ++ t)).2 ≤ s.length) : CutOff s (scan c (s ++ t)) (scan c s) := by
  rw [scan_quote hq] at h
  cases stringBody_cut ht (Nat.zero_le _) h with
  | inl heq =>
    rw [scan_quote hq, scan_quote hq, heq]
    exact .same
  | inr hlength =>
    refine .whole (by rw [scan_quote hq, hlength]) ?_
    rw [scan_quote hq]
    dsimp only
    split <;> rfl

theorem scan_slash_cut (ht : startsApart t = true) (hne : t ≠ [])
    (h : (scan '/' (s ++ t)).2 ≤ s.length) : scan '/' (s ++ t) = scan '/' s := by
  cases s with
  | nil =>
    obtain ⟨d, t, rfl⟩ := List.exists_cons_of_ne_nil hne
    exact scan_slash (ne_of_startsApart ht rfl) t
  | cons d r =>
    by_cases hd : d = '*'
    · subst hd
      rw [List.cons_append, scan_comment] at h ⊢
      rw [scan_comment]
      obtain ⟨-, hstable⟩ | ⟨-, -, hmore⟩ := commentLength_cases r
      · rw [hstable]
      · have := hmore t hne
        simp only [List.length_cons] at h
        omega
    · rw [List.cons_append, scan_slash hd, scan_slash hd]

theorem scan_hash (s : List Char) : scan '#' s =
    if startsName s then (fun e => (.idHash e.content, e.length)) (name 0 s)
    else if s.head?.any fun d => isDigit d || d == '-' then
      ((.hash (name 0 s).content, (name 0 s).length) : Token × Nat)
    else (.delim '#', 0) := by
  cases s with
  | nil => rfl
  | cons d s => rfl

theorem scan_at (s : List Char) : scan '@' s =
    if startsName s then (fun e => (.atKeyword e.content, e.length)) (name 0 s)
    else ((.delim '@', 0) : Token × Nat) :=
  rfl

theorem scan_backslash (s : List Char) : scan '\\' s =
    if startsName ('\\' :: s) then tailOf (nameLike ('\\' :: s)) else (.delim '\\', 0) :=
  rfl

theorem scan_sign (hc : c = '+' ∨ c = '.') (s : List Char) : scan c s =
    if Numeral.starts (c :: s) then tailOf (numeric (c :: s)) else (.delim c, 0) := by
  rcases hc with rfl | rfl <;> rfl

theorem scan_hash_cut (ht : startsApart t = true) (h : (scan '#' (s ++ t)).2 ≤ s.length) :
    CutOff s (scan '#' (s ++ t)) (scan '#' s) := by
  have hhead : ((s ++ t).head?.any fun d => isDigit d || d == '-') =
      s.head?.any fun d => isDigit d || d == '-' := by
    cases s with
    | cons d s => rfl
    | nil =>
      cases t with
      | nil => rfl
      | cons d t =>
        obtain ⟨-, hd, hm⟩ := not_isNameChar (startsApart_cons ht).1
        simp [hd, hm]
  rw [scan_hash, hhead] at h ⊢
  rw [scan_hash]
  refine CutOff.name (f := fun e => (.idHash e.content, e.length)) (n := 0) ht
    (Nat.zero_add _).symm (fun _ => (Nat.zero_add _).symm) (fun _ => rfl) (fun _ hle _ => ?_) h
  by_cases hdigit : (s.head?.any fun d => isDigit d || d == '-') = true
  · rw [if_pos hdigit] at hle ⊢
    rw [if_pos hdigit]
    obtain hname | ⟨hname, -⟩ := name_cut ht (Nat.zero_le _) hle
    · rw [hname]
      exact .same
    · exact .whole hname rfl
  · rw [if_neg hdigit, if_neg hdigit]
    exact .same

theorem scan_at_cut (ht : startsApart t = true) (h : (scan '@' (s ++ t)).2 ≤ s.length) :
    CutOff s (scan '@' (s ++ t)) (scan '@' s) := by
  rw [scan_at] at h ⊢
  exact CutOff.name (f := fun e => (.atKeyword e.content, e.length)) (n := 0) ht
    (Nat.zero_add _).symm (fun _ => (Nat.zero_add _).symm) (fun _ => rfl) (fun _ _ _ => .same) h

theorem scan_backslash_cut (ht : startsApart t = true) (hne : t ≠ [])
    (h : (scan '\\' (s ++ t)).2 ≤ s.length) :
    CutOff s (scan '\\' (s ++ t)) (scan '\\' s) := by
  rw [scan_backslash] at h ⊢
  rw [scan_backslash]
  obtain heq | ⟨hs, hfalse⟩ := startsName_cut (s := '\\' :: s) ht
  · rw [List.cons_append] at heq
    rw [heq] at h ⊢
    by_cases hs : startsName ('\\' :: s) = true
    · rw [if_pos hs] at h ⊢
      rw [if_pos hs]
      exact tailOf_nameLike_cut ht hne h
    · rw [if_neg hs, if_neg hs]
      exact .same
  · obtain rfl : s = [] := (List.cons.inj hs).2
    exact .whole rfl (isTrivia_nameLike ['\\'])

theorem scan_hyphen_cut (ht : startsApart t = true) (hne : t ≠ [])
    (h : (scan '-' (s ++ t)).2 ≤ s.length) : CutOff s (scan '-' (s ++ t)) (scan '-' s) := by
  have hstarts : Numeral.starts ('-' :: (s ++ t)) = Numeral.starts ('-' :: s) :=
    Numeral.starts_append (s := '-' :: s) ht
  have hname : startsName ('-' :: (s ++ t)) = startsName ('-' :: s) :=
    (startsName_cut (s := '-' :: s) ht).resolve_right (by simp)
  rw [scan_hyphen, hstarts, commentClose_append ht, hname] at h ⊢
  rw [scan_hyphen]
  by_cases hnumeral : Numeral.starts ('-' :: s) = true
  · rw [if_pos hnumeral] at h ⊢
    rw [if_pos hnumeral]
    exact tailOf_numeric_cut ht h
  by_cases hclose : ['-', '>'].isPrefixOf s = true
  · rw [if_neg hnumeral, if_neg hnumeral, if_pos hclose, if_pos hclose]
    exact .same
  by_cases hstart : startsName ('-' :: s) = true
  · rw [if_neg hnumeral, if_neg hclose, if_pos hstart] at h ⊢
    rw [if_neg hnumeral, if_neg hclose, if_pos hstart]
    exact tailOf_nameLike_cut ht hne h
  · rw [if_neg hnumeral, if_neg hclose, if_neg hstart, if_neg hnumeral, if_neg hclose,
      if_neg hstart]
    exact .same

theorem scan_sign_cut (hc : c = '+' ∨ c = '.') (ht : startsApart t = true)
    (h : (scan c (s ++ t)).2 ≤ s.length) : CutOff s (scan c (s ++ t)) (scan c s) := by
  have hstarts : Numeral.starts (c :: (s ++ t)) = Numeral.starts (c :: s) :=
    Numeral.starts_append (s := c :: s) ht
  rw [scan_sign hc, hstarts] at h ⊢
  rw [scan_sign hc]
  by_cases hnumeral : Numeral.starts (c :: s) = true
  · rw [if_pos hnumeral] at h ⊢
    rw [if_pos hnumeral]
    exact tailOf_numeric_cut ht h
  · rw [if_neg hnumeral, if_neg hnumeral]
    exact .same

/-- What begins with none of the characters that begin a space, a name, a numeral, a string, an
escape or a comment is read without regard to what stands apart behind it. -/
theorem scan_symbol_cut (hsp : isSpace c = false) (hd : isDigit c = false)
    (hn : isNameStart c = false)
    (hc : c ∉ ['"', '\'', '#', '@', '+', '.', '-', '\\', '/']) (ht : startsApart t = true) :
    scan c (s ++ t) = scan c s := by
  rw [scan.eq_def, scan.eq_def]
  simp only [hsp, hd, hn, Bool.false_eq_true, if_false, commentOpen_append ht,
    matchOperator_append _ _ ht]
  split
  case h_1 | h_2 | h_3 | h_4 | h_5 | h_6 | h_7 | h_8 | h_9 => simp at hc
  all_goals rfl

/-- A token that ends before the cut is read as before, but for one at the cut that takes in all of
the rest instead, and for a call whose argument the cut leaves blank. -/
theorem scan_cut (ht : startsApart t = true) (hne : t ≠ [])
    (h : (scan c (s ++ t)).2 ≤ s.length) : CutOff s (scan c (s ++ t)) (scan c s) := by
  by_cases hsp : isSpace c = true
  · rw [scan_space_cut hsp h]
    exact .same
  by_cases hd : isDigit c = true
  · rw [scan_digit hd] at h ⊢
    rw [scan_digit hd]
    exact tailOf_numeric_cut ht h
  by_cases hn : isNameStart c = true
  · rw [scan_nameStart hn] at h ⊢
    rw [scan_nameStart hn]
    exact tailOf_nameLike_cut ht hne h
  by_cases hc : c ∈ ['"', '\'', '#', '@', '+', '.', '-', '\\', '/']
  · simp only [List.mem_cons, List.not_mem_nil, or_false] at hc
    obtain hq | hq | rfl | rfl | hs | hs | rfl | rfl | rfl := hc
    · exact scan_quote_cut (.inl hq) ht h
    · exact scan_quote_cut (.inr hq) ht h
    · exact scan_hash_cut ht h
    · exact scan_at_cut ht h
    · exact scan_sign_cut (.inl hs) ht h
    · exact scan_sign_cut (.inr hs) ht h
    · exact scan_hyphen_cut ht hne h
    · exact scan_backslash_cut ht hne h
    · rw [scan_slash_cut ht hne h]
      exact .same
  · rw [Bool.not_eq_true] at hsp hd hn
    rw [scan_symbol_cut hsp hd hn hc ht]
    exact .same

theorem isTrivia_ite {p : Prop} [Decidable p] {x y : Token × Nat} (hx : x.1.isTrivia = false)
    (hy : y.1.isTrivia = false) : (if p then x else y).1.isTrivia = false := by
  split <;> assumption

theorem isTrivia_tailOf {x : Token × Nat} (h : x.1.isTrivia = false) :
    (tailOf x).1.isTrivia = false :=
  h

theorem isTrivia_matchOperator {x : Token} (hx : x.isTrivia = false) (c : Char) (s : List Char) :
    (matchOperator c x s).1.isTrivia = false := by
  rw [matchOperator.eq_def]
  split
  · exact hx
  · rfl

theorem isTrivia_scan_mark (hsp : ¬isSpace c = true) (hd : ¬isDigit c = true)
    (hn : ¬isNameStart c = true) (hc : c ≠ '/') (s : List Char) :
    (scan c s).1.isTrivia = false := by
  rw [scan.eq_def, if_neg hsp, if_neg hd, if_neg hn]
  split
  case h_1 | h_2 =>
    dsimp only
    split <;> rfl
  case h_3 => exact isTrivia_ite rfl (by split <;> first | rfl | exact isTrivia_ite rfl rfl)
  case h_4 | h_10 => exact isTrivia_ite rfl rfl
  case h_5 | h_6 => exact isTrivia_ite (isTrivia_tailOf (isTrivia_numeric _)) rfl
  case h_7 =>
    exact isTrivia_ite (isTrivia_tailOf (isTrivia_numeric _))
      (isTrivia_ite rfl (isTrivia_ite (isTrivia_tailOf (isTrivia_nameLike _)) rfl))
  case h_8 => exact isTrivia_ite (isTrivia_tailOf (isTrivia_nameLike _)) rfl
  case h_9 => exact absurd rfl hc
  case h_11 | h_12 | h_13 | h_14 | h_15 => exact isTrivia_matchOperator rfl ..
  all_goals rfl

theorem begins_of_isTrivia (h : (scan c s).1.isTrivia = true) :
    isSpace c = true ∨ c = '/' ∧ ∃ r, s = '*' :: r := by
  by_cases hsp : isSpace c = true
  · exact .inl hsp
  by_cases hd : isDigit c = true
  · rw [scan_digit hd, isTrivia_tailOf (isTrivia_numeric _)] at h
    contradiction
  by_cases hn : isNameStart c = true
  · rw [scan_nameStart hn, isTrivia_tailOf (isTrivia_nameLike _)] at h
    contradiction
  by_cases hslash : c = '/'
  · subst hslash
    refine .inr ⟨rfl, ?_⟩
    cases s with
    | nil => exact absurd h (by decide)
    | cons d r =>
      by_cases hstar : d = '*'
      · exact ⟨r, by rw [hstar]⟩
      · rw [scan_slash hstar] at h
        contradiction
  rw [isTrivia_scan_mark hsp hd hn hslash] at h
  contradiction

end StyleFold.Token
