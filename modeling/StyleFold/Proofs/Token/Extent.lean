import StyleFold.Proofs.Token.Apart

/-!
Strings, comments and addresses read in a longer text: either they come to an end, and what follows
makes no difference, or they run up to the end of the text and on into whatever follows.
-/
namespace StyleFold.Token
open Text

variable {s t : List Char}

theorem stringBody_length_le (q : Char) (k : Nat) (s : List Char) :
    (stringBody q k s).length ≤ s.length := by
  fun_induction stringBody q k s <;> simp_all [Extent.stop, Extent.skip, Extent.cons]

theorem urlEnd_length_le (s : List Char) : (urlEnd s).length ≤ s.length := by
  have h := spanLength_le isSpace s
  rw [urlEnd.eq_def]
  dsimp only
  split
  · exact h
  · rename_i c r heq
    have := congrArg List.length heq
    simp [Extent.stop] at this ⊢
    omega

theorem urlBody_length_le (k : Nat) (s : List Char) : (urlBody k s).length ≤ s.length := by
  fun_induction urlBody k s <;> simp_all [Extent.stop, Extent.skip, Extent.cons, urlEnd_length_le]

theorem spoiltLength_le (s : List Char) : spoiltLength s ≤ s.length := by
  fun_induction spoiltLength s <;> simp_all

theorem closeLength_le (s : List Char) : closeLength s ≤ s.length := by
  rw [closeLength.eq_def]
  split <;> simp

theorem commentLength_le (s : List Char) : commentLength s ≤ s.length := by
  fun_induction commentLength s <;> simp_all

theorem commentLength_cases (s : List Char) :
    (['*', '/'] <:+ s.take (commentLength s) ∧ ∀ t, commentLength (s ++ t) = commentLength s) ∨
      (¬['*', '/'] <:+ s ∧ commentLength s = s.length ∧
        ∀ t, t ≠ [] → s.length < commentLength (s ++ t)) := by
  fun_induction commentLength s with
  | case1 =>
    refine .inr ⟨by simp, rfl, fun t ht => ?_⟩
    rw [List.nil_append, commentLength.eq_def]
    split <;> simp_all
  | case2 s => exact .inl ⟨by simp, fun t => by simp [commentLength]⟩
  | case3 c s hc ih =>
    obtain ⟨hend, ht⟩ | ⟨hend, hlen, ht⟩ := ih
    · refine .inl ⟨?_, fun t => ?_⟩
      · rw [List.take_succ_cons]
        exact hend.trans (List.suffix_cons ..)
      · have hne : s ≠ [] := by
          rintro rfl
          simp at hend
        rw [List.cons_append, commentLength, ht]
        intro r h₁ h₂
        obtain ⟨d, s, rfl⟩ := List.exists_cons_of_ne_nil hne
        simp_all
    · refine .inr ⟨?_, by simp [hlen], fun t hne => ?_⟩
      · rw [List.suffix_cons_iff]
        rintro (h | h)
        · cases h
          exact hc [] rfl rfl
        · exact hend h
      · rw [List.cons_append, commentLength.eq_def]
        split
        · contradiction
        · rename_i heq
          obtain ⟨rfl, hr⟩ := List.cons.inj heq
          cases s with
          | nil => simp
          | cons d s => exact absurd (List.cons.inj hr).1 fun hd => hc s rfl (by rw [hd])
        · rename_i heq
          obtain ⟨rfl, rfl⟩ := List.cons.inj heq
          simpa using ht t hne

theorem stringBody_cases {q : Char} (hs : '\\' ∉ s) :
    (((stringBody q 0 s).good = true →
          (s.take (stringBody q 0 s).length).getLast? = some q) ∧
        ∀ t, stringBody q 0 (s ++ t) = stringBody q 0 s) ∨
      ((stringBody q 0 s).good = true ∧ q ∉ s ∧ (stringBody q 0 s).length = s.length ∧
        ∀ t, t ≠ [] → s.length ≤ (stringBody q 0 (s ++ t)).length ∧
          ((stringBody q 0 (s ++ t)).good = true →
            s.length < (stringBody q 0 (s ++ t)).length)) := by
  induction s with
  | nil =>
    refine .inr ⟨rfl, by simp, rfl, fun t ht => ?_⟩
    obtain ⟨d, t, rfl⟩ := List.exists_cons_of_ne_nil ht
    refine ⟨by simp, ?_⟩
    rw [List.nil_append, stringBody.eq_def]
    dsimp only
    split_ifs <;> simp [Extent.stop, Extent.skip, Extent.cons]
  | cons c s ih =>
    have hc : (c == '\\') = false := by simpa using (List.ne_of_not_mem_cons hs).symm
    have ih := ih (List.not_mem_of_not_mem_cons hs)
    simp only [List.cons_append, stringBody, hc]
    by_cases hq : (c == q) = true
    · simp_all [Extent.stop]
    · by_cases hn : isNewline c = true
      · simp_all [Extent.stop]
      · simp only [hq, hn, Bool.false_eq_true, if_false, Extent.cons, List.length_cons]
        obtain ⟨hend, ht⟩ | ⟨hg, hqs, hlen, ht⟩ := ih
        · refine .inl ⟨fun hg => ?_, fun t => by rw [ht]⟩
          have := hend hg
          rw [List.take_succ_cons, List.getLast?_cons, this]
          rfl
        · refine .inr ⟨hg, ?_, by rw [hlen], fun t hne => ?_⟩
          · rintro hm
            obtain rfl | hm := List.mem_cons.mp hm
            · simp at hq
            · exact hqs hm
          · have := ht t hne
            grind

theorem spanLength_append_of_drop {p : Char → Bool} {c : Char} {r : List Char}
    (h : s.drop (spanLength p s) = c :: r) (t : List Char) :
    spanLength p (s ++ t) = spanLength p s := by
  have hl := congrArg List.length h
  rw [List.length_drop, List.length_cons] at hl
  rw [spanLength] at hl
  rw [spanLength, spanLength, List.takeWhile_append, if_neg (by omega)]

theorem drop_spanLength_append {p : Char → Bool} {c : Char} {r : List Char}
    (h : s.drop (spanLength p s) = c :: r) (t : List Char) :
    (s ++ t).drop (spanLength p (s ++ t)) = c :: (r ++ t) := by
  rw [spanLength_append_of_drop h, List.drop_append_of_le_length (spanLength_le p s), h,
    List.cons_append]

theorem spanLength_add_length_drop (p : Char → Bool) (s : List Char) :
    spanLength p s + (s.drop (spanLength p s)).length = s.length := by
  have := spanLength_le p s
  rw [List.length_drop]
  omega

theorem spanLength_of_drop_nil {p : Char → Bool} (h : s.drop (spanLength p s) = []) :
    spanLength p s = s.length :=
  (spanLength_le p s).antisymm (List.drop_eq_nil_iff.mp h)

theorem spanLength_append_of_drop_nil {p : Char → Bool} (h : s.drop (spanLength p s) = [])
    (t : List Char) : spanLength p (s ++ t) = s.length + spanLength p t := by
  have hl := spanLength_of_drop_nil h
  rw [spanLength] at hl
  rw [spanLength, List.takeWhile_append, if_pos hl, List.length_append, spanLength]

theorem all_of_drop_nil {p : Char → Bool} (h : s.drop (spanLength p s) = []) :
    ∀ c ∈ s, p c = true := by
  have hs := (List.takeWhile_sublist p).eq_of_length (spanLength_of_drop_nil h)
  intro c hc
  rw [← hs] at hc
  exact List.mem_takeWhile_imp hc

theorem urlEnd_cases (s : List Char) :
    (((urlEnd s).good = true ↔ (s.take (urlEnd s).length).getLast? = some ')') ∧
        ∀ t, urlEnd (s ++ t) = urlEnd s) ∨
      ((urlEnd s).good = true ∧ (∀ c ∈ s, isSpace c = true) ∧
        (urlEnd s).length = s.length ∧ ∀ t, t ≠ [] → s.length < (urlEnd (s ++ t)).length) := by
  cases h : s.drop (spanLength isSpace s) with
  | nil =>
    have hl := spanLength_of_drop_nil h
    refine .inr ⟨by simp [urlEnd, h, Extent.stop], all_of_drop_nil h,
      by simp [urlEnd, hl, Extent.stop], fun t ht => ?_⟩
    have hlt : 0 < t.length := List.length_pos_of_ne_nil ht
    simp only [urlEnd, spanLength_append_of_drop_nil h, List.drop_length_add_append]
    cases hd : t.drop (spanLength isSpace t) with
    | nil => simpa [Extent.stop, spanLength_of_drop_nil hd] using hlt
    | cons d r =>
      simp only [Extent.stop]
      omega
  | cons c r =>
    refine .inl ⟨?_, fun t => ?_⟩
    · simp only [urlEnd, h, Extent.stop]
      rw [List.take_add_one]
      simp [← List.head?_drop, h]
    · simp only [urlEnd, spanLength_append_of_drop h,
        List.drop_append_of_le_length (spanLength_le isSpace s), h, List.cons_append]

theorem getLast?_take_cons {c q : Char} {n : Nat} (hc : c ≠ q) :
    ((c :: s).take (n + 1)).getLast? = some q ↔ (s.take n).getLast? = some q := by
  rw [List.take_succ_cons, List.getLast?_cons]
  cases (s.take n).getLast? <;> simp [hc]

theorem urlBody_length_pos (c : Char) (s : List Char) : 0 < (urlBody 0 (c :: s)).length := by
  rw [urlBody.eq_def]
  dsimp only
  split_ifs <;> simp [Extent.stop, Extent.skip, Extent.cons]

theorem urlBody_cases (hs : '\\' ∉ s) :
    (((urlBody 0 s).good = true ↔ (s.take (urlBody 0 s).length).getLast? = some ')') ∧
        ∀ t, urlBody 0 (s ++ t) = urlBody 0 s) ∨
      ((urlBody 0 s).good = true ∧ s.getLast? ≠ some ')' ∧ (urlBody 0 s).length = s.length ∧
        ∀ t, t ≠ [] → s.length < (urlBody 0 (s ++ t)).length) := by
  induction s with
  | nil =>
    refine .inr ⟨rfl, by simp, rfl, fun t ht => ?_⟩
    obtain ⟨d, t, rfl⟩ := List.exists_cons_of_ne_nil ht
    exact urlBody_length_pos d t
  | cons c s ih =>
    have hc : (c == '\\') = false := by simpa using (List.ne_of_not_mem_cons hs).symm
    have ih := ih (List.not_mem_of_not_mem_cons hs)
    simp only [List.cons_append, urlBody, hc]
    by_cases hq : c = ')'
    · simp [hq, Extent.stop]
    · have hlast : (c :: s).getLast? = some ')' ↔ s.getLast? = some ')' := by
        simpa only [List.take_succ_cons, List.take_length] using
          getLast?_take_cons (s := s) (n := s.length) hq
      simp only [beq_eq_false_iff_ne.mpr hq, ne_eq, hlast, Bool.false_eq_true, if_false]
      by_cases hw : isSpace c = true
      · simp only [hw, if_true, Extent.skip, List.length_cons, getLast?_take_cons hq]
        obtain ⟨hg, ht⟩ | ⟨hg, hd, hlen, ht⟩ := urlEnd_cases s
        · exact .inl ⟨hg, fun t => by rw [ht]⟩
        · refine .inr ⟨hg, fun h => ?_, by rw [hlen], fun t hne => by simpa using ht t hne⟩
          exact absurd (hd _ (List.mem_of_getLast? h)) (by decide)
      · by_cases hb : isUrlBreaker c = true
        · simp [hw, hb, hq, Extent.stop]
        · simp only [hw, hb, Bool.false_eq_true, if_false, Extent.cons, List.length_cons,
            getLast?_take_cons hq]
          obtain ⟨hg, ht⟩ | ⟨hg, hlast, hlen, ht⟩ := ih
          · exact .inl ⟨hg, fun t => by rw [ht]⟩
          · exact .inr ⟨hg, hlast, by rw [hlen], fun t hne => by simpa using ht t hne⟩

theorem spoiltLength_cons {c : Char} (hc : c ≠ '\\') (hp : c ≠ ')') (s : List Char) :
    spoiltLength (c :: s) = spoiltLength s + 1 := by
  rw [spoiltLength.eq_def]
  split <;> simp_all

theorem spoilt_cases (hs : '\\' ∉ s) :
    ((s.take (spoiltLength s + closeLength (s.drop (spoiltLength s)))).getLast? = some ')' ∧
        ∀ t, spoiltLength (s ++ t) = spoiltLength s ∧
          closeLength ((s ++ t).drop (spoiltLength s)) =
            closeLength (s.drop (spoiltLength s))) ∨
      (s.getLast? ≠ some ')' ∧ spoiltLength s = s.length ∧
        ∀ t, t ≠ [] → s.length <
          spoiltLength (s ++ t) + closeLength ((s ++ t).drop (spoiltLength (s ++ t)))) := by
  induction s with
  | nil =>
    refine .inr ⟨by simp, rfl, fun t ht => ?_⟩
    obtain ⟨d, t, rfl⟩ := List.exists_cons_of_ne_nil ht
    rw [List.nil_append, spoiltLength.eq_def]
    split <;> simp_all [closeLength]
  | cons c s ih =>
    have hc := (List.ne_of_not_mem_cons hs).symm
    have ih := ih (List.not_mem_of_not_mem_cons hs)
    by_cases hp : c = ')'
    · subst c
      exact .inl ⟨by simp [spoiltLength, closeLength], by simp [spoiltLength, closeLength]⟩
    · simp only [List.cons_append, spoiltLength_cons hc hp, List.drop_succ_cons,
        Nat.add_right_comm _ 1, getLast?_take_cons hp]
      obtain ⟨hend, ht⟩ | ⟨hend, hlen, ht⟩ := ih
      · exact .inl ⟨hend, fun t => by simpa using ht t⟩
      · refine .inr ⟨?_, by simp [hlen], fun t hne => by simpa using ht t hne⟩
        simpa [List.getLast?_cons, hp] using fun h => by cases h' : s.getLast? <;> simp_all

theorem getLast?_take_add {n m : Nat} {q : Char} (h : ((s.drop n).take m).getLast? = some q) :
    (s.take (n + m)).getLast? = some q := by
  rw [List.take_add, List.getLast?_append, h]
  rfl

def isAddress : Token → Bool
  | .url _ | .badUrl _ => true
  | _ => false

theorem isAddress_of_urlAddress {x : Token × Nat} (h : urlAddress s = some x) :
    isAddress x.1 = true := by
  rw [urlAddress.eq_def] at h
  dsimp only at h
  split at h
  · cases h
    rfl
  · split_ifs at h <;> cases h <;> rfl

theorem urlAddress_length_le {x : Token × Nat} (h : urlAddress s = some x) :
    x.2 ≤ s.length := by
  have hlead := spanLength_le isSpace s
  rw [urlAddress.eq_def] at h
  dsimp only at h
  split at h
  · cases h
    exact hlead
  · rename_i c r heq
    have hl := congrArg List.length heq
    have hbody := urlBody_length_le 0 (c :: r)
    have hspoilt := spoiltLength_le ((c :: r).drop (urlBody 0 (c :: r)).length)
    have hclose := closeLength_le ((c :: r).drop ((urlBody 0 (c :: r)).length +
      spoiltLength ((c :: r).drop (urlBody 0 (c :: r)).length)))
    simp only [List.length_drop] at hl hspoilt hclose
    split_ifs at h <;> cases h <;> dsimp only <;> omega

theorem urlAddress_length_lt (h : s.drop (spanLength isSpace s) = []) (ht : t ≠ [])
    {x : Token × Nat} (hx : urlAddress (s ++ t) = some x) : s.length < x.2 := by
  have hlt : 0 < t.length := List.length_pos_of_ne_nil ht
  rw [urlAddress.eq_def] at hx
  simp only [spanLength_append_of_drop_nil h, List.drop_length_add_append] at hx
  cases hd : t.drop (spanLength isSpace t) with
  | nil =>
    rw [hd] at hx
    cases hx
    simpa [spanLength_of_drop_nil hd] using hlt
  | cons d r =>
    have hpos := urlBody_length_pos d r
    rw [hd] at hx
    dsimp only at hx
    split_ifs at hx <;> cases hx <;> dsimp only <;> omega

theorem urlAddress_of_good {c : Char} {r : List Char} (h : s.drop (spanLength isSpace s) = c :: r)
    (hq : (c == '"' || c == '\'') = false) (hg : (urlBody 0 (c :: r)).good = true) :
    urlAddress s = some (.url (urlBody 0 (c :: r)).content,
      spanLength isSpace s + (urlBody 0 (c :: r)).length) := by
  simp [urlAddress, h, hq, hg]

theorem urlAddress_of_bad {c : Char} {r u : List Char}
    (h : s.drop (spanLength isSpace s) = c :: r) (hq : (c == '"' || c == '\'') = false)
    (hg : (urlBody 0 (c :: r)).good = false) (hu : (c :: r).drop (urlBody 0 (c :: r)).length = u) :
    urlAddress s = some (.badUrl ((c :: r).take ((urlBody 0 (c :: r)).length + spoiltLength u)),
      spanLength isSpace s + (urlBody 0 (c :: r)).length +
        (spoiltLength u + closeLength (u.drop (spoiltLength u)))) := by
  subst hu
  simp [urlAddress, h, hq, hg, List.drop_drop, Nat.add_assoc]

theorem urlAddress_of_not_quote {c : Char} {r : List Char}
    (h : s.drop (spanLength isSpace s) = c :: r) (hq : (c == '"' || c == '\'') = false) :
    ∃ x, urlAddress s = some x ∧ spanLength isSpace s + (urlBody 0 (c :: r)).length ≤ x.2 := by
  cases hg : (urlBody 0 (c :: r)).good with
  | true => exact ⟨_, urlAddress_of_good h hq hg, le_rfl⟩
  | false => exact ⟨_, urlAddress_of_bad h hq hg rfl, Nat.le_add_right ..⟩

theorem getLast?_of_drop {c : Char} {r : List Char} {n : Nat} (h : s.drop n = c :: r) :
    s.getLast? = (c :: r).getLast? := by
  rw [← List.take_append_drop n s, h, List.getLast?_append_of_ne_nil _ (List.cons_ne_nil c r)]

theorem badUrl_cases {c : Char} {r : List Char} (hs : '\\' ∉ c :: r)
    (h : s.drop (spanLength isSpace s) = c :: r) (hq : (c == '"' || c == '\'') = false)
    (hend : (urlBody 0 (c :: r)).good = true ↔
      ((c :: r).take (urlBody 0 (c :: r)).length).getLast? = some ')')
    (hbody : ∀ t, urlBody 0 (c :: (r ++ t)) = urlBody 0 (c :: r))
    (hg : (urlBody 0 (c :: r)).good = false) :
    ((∀ x, urlAddress s = some x → (s.take x.2).getLast? = some ')') ∧
        ∀ t, urlAddress (s ++ t) = urlAddress s) ∨
      ((c :: r).getLast? ≠ some ')' ∧ (∃ a, urlAddress s = some (a, s.length)) ∧
        ∀ t, t ≠ [] → ∃ x, urlAddress (s ++ t) = some x ∧ s.length < x.2) := by
  have hle := urlBody_length_le 0 (c :: r)
  have hlead := spanLength_add_length_drop isSpace s
  rw [h] at hlead
  obtain ⟨u, hu⟩ : ∃ u, (c :: r).drop (urlBody 0 (c :: r)).length = u := ⟨_, rfl⟩
  have hsplit : (c :: r).take (urlBody 0 (c :: r)).length ++ u = c :: r := by
    rw [← hu, List.take_append_drop]
  have hlen : (urlBody 0 (c :: r)).length + u.length = (c :: r).length := by
    rw [← hu, List.length_drop]
    omega
  have hlong (t) : urlAddress (s ++ t) = _ :=
    urlAddress_of_bad (drop_spanLength_append h t) hq (by rw [hbody, hg])
      (by rw [hbody, ← List.cons_append, List.drop_append_of_le_length hle, hu])
  simp only [hbody, spanLength_append_of_drop h] at hlong
  rw [urlAddress_of_bad h hq hg hu]
  have hplain : '\\' ∉ u := fun hm => hs (hsplit ▸ List.mem_append_right _ hm)
  obtain ⟨hlast, ht⟩ | ⟨hlast, hl, ht⟩ := spoilt_cases hplain
  · refine .inl ⟨fun x hx => ?_, fun t => ?_⟩
    · cases hx
      rw [Nat.add_assoc]
      exact getLast?_take_add (by rw [h]; exact getLast?_take_add (by rw [hu]; exact hlast))
    · rw [hlong, (ht t).1, (ht t).2, ← List.cons_append, List.take_append_of_le_length]
      have := spoiltLength_le u
      omega
  · have hall : spanLength isSpace s + (urlBody 0 (c :: r)).length +
        (spoiltLength u + closeLength (u.drop (spoiltLength u))) = s.length := by
      rw [hl, List.drop_length, ← hlead, ← hlen, Nat.add_assoc]
      rfl
    refine .inr ⟨?_, ⟨_, by rw [hall]⟩, fun t hne => ⟨_, hlong t, ?_⟩⟩
    · rw [← hsplit, List.getLast?_append]
      cases hx : u.getLast? with
      | none => simpa [hg] using hend
      | some q => simpa [hx] using hlast
    · have := ht t hne
      dsimp only
      omega

/-- Either a closing bracket ends the address, and what follows makes no difference, or the address
runs to the end of the text. -/
theorem urlAddress_cases (hs : '\\' ∉ s) :
    ((∀ x, urlAddress s = some x → (s.take x.2).getLast? = some ')') ∧
        ∀ t, urlAddress (s ++ t) = urlAddress s) ∨
      (s.getLast? ≠ some ')' ∧ (∃ a, urlAddress s = some (a, s.length)) ∧
        ∀ t, t ≠ [] → (∃ x, urlAddress (s ++ t) = some x ∧ s.length < x.2) ∨
          (urlAddress (s ++ t) = none ∧ ∀ c ∈ s, isSpace c = true)) := by
  cases h : s.drop (spanLength isSpace s) with
  | nil =>
    have hall := all_of_drop_nil h
    refine .inr ⟨fun hl => absurd (hall _ (List.mem_of_getLast? hl)) (by decide),
      ⟨.url [], by simp [urlAddress, spanLength_of_drop_nil h]⟩, fun t ht => ?_⟩
    cases hx : urlAddress (s ++ t) with
    | none => exact .inr ⟨rfl, hall⟩
    | some x => exact .inl ⟨x, rfl, urlAddress_length_lt h ht hx⟩
  | cons c r =>
    have hcr : '\\' ∉ c :: r := fun hm => hs (List.mem_of_mem_drop (h ▸ hm))
    have hlead := spanLength_add_length_drop isSpace s
    have hstart := drop_spanLength_append h
    rw [h] at hlead
    rw [getLast?_of_drop h]
    by_cases hq : (c == '"' || c == '\'') = true
    · refine .inl ⟨by simp [urlAddress, h, hq], fun t => ?_⟩
      simp only [urlAddress, hstart, h, hq, if_true]
    rw [Bool.not_eq_true] at hq
    obtain ⟨hend, hbody⟩ | ⟨hg, hend, hl, hbody⟩ := urlBody_cases hcr
    · have hbody (t) : urlBody 0 (c :: (r ++ t)) = urlBody 0 (c :: r) := hbody t
      cases hg : (urlBody 0 (c :: r)).good with
      | true =>
        refine .inl ⟨fun x hx => ?_, fun t => ?_⟩
        · cases (urlAddress_of_good h hq hg).symm.trans hx
          exact getLast?_take_add (by rw [h, hend.mp hg])
        · rw [urlAddress_of_good h hq hg, urlAddress_of_good (hstart t) hq (by rw [hbody, hg]),
            hbody, spanLength_append_of_drop h]
      | false =>
        obtain hin | ⟨hl, hx, ht⟩ := badUrl_cases hcr h hq hend hbody hg
        · exact .inl hin
        · exact .inr ⟨hl, hx, fun t hne => .inl (ht t hne)⟩
    · refine .inr ⟨hend, ⟨_, by rw [urlAddress_of_good h hq hg, hl, hlead]⟩, fun t hne => .inl ?_⟩
      obtain ⟨x, hx, hle⟩ := urlAddress_of_not_quote (hstart t) hq
      have hlt : (c :: r).length < (urlBody 0 (c :: (r ++ t))).length := hbody t hne
      rw [spanLength_append_of_drop h] at hle
      exact ⟨x, hx, by omega⟩

end StyleFold.Token
