import StyleFold.Proofs.Shorthand.Background.Slots

/-!
The arguments of a function call without brackets of their own. Whatever stands around the call, it is
blanked out together with its arguments, so that these cannot be taken for the word of a slot.
-/
namespace StyleFold.BackgroundShorthand
open Text Pattern Declaration

variable {c : Char} {s t u v w x y p q m name : List Char} {slot : BackgroundSlot}

theorem not_mem_open (hx : ∀ c ∈ x, isPlain c = true) : '(' ∉ x :=
  fun hm => absurd (hx '(' hm) (by decide)

theorem not_mem_close (hx : ∀ c ∈ x, isPlain c = true) : ')' ∉ x :=
  fun hm => absurd (hx ')' hm) (by decide)

theorem shallow_of_language (h : Language (star argument) u) : Shallow u := by
  obtain ⟨ws, rfl, hws⟩ := h
  induction ws with
  | nil => exact .nil
  | cons w ws ih =>
    obtain ⟨hw, hrest⟩ := List.forall_mem_cons.mp hws
    have hshallow := ih hrest
    rw [List.flatten_cons]
    obtain ⟨c, rfl, hc⟩ | ⟨_, _, rfl, ⟨c, rfl, hopen⟩, v, _, rfl, hv, d, rfl, hclose⟩ := hw
    · exact .plain hc hshallow
    · rw [beq_iff_eq.mp hopen, beq_iff_eq.mp hclose]
      simpa using Shallow.bracket hv hshallow

inductive FunctionCall : List Char → Prop
  | of {name u : List Char} (hne : name ≠ []) (hname : ∀ c ∈ name, isCallChar c = true)
      (hu : Shallow u) : FunctionCall (name ++ '(' :: (u ++ [')']))

theorem functionCall_of_language (h : Language functionCall w) : FunctionCall w := by
  obtain ⟨name, _, rfl, ⟨_, r, rfl, ⟨c, rfl, hc⟩, hr⟩, _, _, rfl, ⟨o, rfl, hopen⟩, u, _, rfl, hu,
    d, rfl, hclose⟩ := h
  rw [beq_iff_eq.mp hopen, beq_iff_eq.mp hclose]
  exact .of (List.cons_ne_nil c r) (List.forall_mem_cons.mpr ⟨hc, hr⟩) (shallow_of_language hu)

/-- The second text is the first one with a space for every function call. -/
inductive Blanked : List Char → List Char → Prop
  | nil : Blanked [] []
  | call {w t m : List Char} (hw : FunctionCall w) (h : Blanked t m) : Blanked (w ++ t) (' ' :: m)
  | plain {c : Char} {s m : List Char} (hc : ∀ w t, c :: s = w ++ t → ¬FunctionCall w)
      (h : Blanked s m) : Blanked (c :: s) (c :: m)

theorem exists_blanked (s : List Char) : ∃ m, Blanked s m := by
  induction hn : s.length using Nat.strong_induction_on generalizing s with
  | _ n ih =>
    by_cases hcall : ∃ w t, s = w ++ t ∧ FunctionCall w
    · obtain ⟨w, t, rfl, hw⟩ := hcall
      have hlt : t.length < n := by
        obtain ⟨hne, -, -⟩ := hw
        rw [← hn]
        simp
        omega
      obtain ⟨m, hm⟩ := ih t.length hlt t rfl
      exact ⟨_, .call hw hm⟩
    · cases s with
      | nil => exact ⟨_, .nil⟩
      | cons c s =>
        obtain ⟨m, hm⟩ := ih s.length (by simp [← hn]) s rfl
        exact ⟨_, .plain (fun w t hs hw => hcall ⟨w, t, hs, hw⟩) hm⟩

theorem Blanked.maskedFrom_eq (h : Blanked s m) :
    ∀ n first, s.length ≤ n → maskedFrom n first s = m := by
  induction h with
  | nil => exact fun _ _ _ => rfl
  | @call w t m hw _ ih =>
    intro n first hn
    obtain ⟨hne, hname, hu⟩ := hw
    have hmatch := takes_functionCall hne hname hu t n first [] hn
    rw [← match?_eq_head?] at hmatch
    rw [maskedFrom, piecesFrom_found hmatch rfl (by simp), List.flatMap_cons, ← maskedFrom,
      ih n false (le_trans (by simp; omega) hn)]
    rfl
  | @plain c s m hc _ ih =>
    intro n first hn
    have hmatch : match? n functionCall first (c :: s) = none := by
      have hrefuses : Refuses functionCall (c :: s) := fun w t hs hw =>
        hc w t hs (functionCall_of_language hw)
      rw [match?_eq_head?, outcomes_of_refuses hrefuses, List.head?_nil]
    rw [maskedFrom, piecesFrom, hmatch, List.flatMap_cons, ← maskedFrom,
      ih n false ((Nat.le_succ _).trans hn)]
    rfl

theorem Blanked.masked_eq (h : Blanked s m) : masked s = m :=
  h.maskedFrom_eq s.length true le_rfl

theorem blanked_masked (s : List Char) : Blanked s (masked s) := by
  obtain ⟨m, hm⟩ := exists_blanked s
  rwa [hm.masked_eq]

/-- Arguments in front of their closing bracket either end before a pair of brackets or hold both of
them, whatever stands between these. -/
theorem shallow_around (hu : Shallow u) (hx : ∀ c ∈ x, isPlain c = true)
    (h : u ++ ')' :: t = q ++ '(' :: (x ++ ')' :: s)) :
    (∃ r, q = u ++ ')' :: r ∧ t = r ++ '(' :: (x ++ ')' :: s)) ∨
      ∃ r, s = r ++ ')' :: t ∧ ∀ y, (∀ c ∈ y, isPlain c = true) →
        Shallow (q ++ '(' :: (y ++ ')' :: r)) := by
  induction hu generalizing q with
  | nil =>
    cases q with
    | nil => simp at h
    | cons d q =>
      obtain ⟨rfl, ht⟩ := List.cons.inj h
      exact .inl ⟨q, rfl, ht⟩
  | @plain c u hc hu ih =>
    cases q with
    | nil =>
      obtain ⟨rfl, -⟩ := List.cons.inj h
      exact absurd hc (by decide)
    | cons d q =>
      obtain ⟨rfl, hbehind⟩ := List.cons.inj h
      obtain ⟨r, rfl, ht⟩ | ⟨r, hs, hr⟩ := ih hbehind
      · exact .inl ⟨r, rfl, ht⟩
      · exact .inr ⟨r, hs, fun y hy => .plain hc (hr y hy)⟩
  | @bracket v u hv hu ih =>
    rw [List.cons_append, List.append_assoc, List.cons_append] at h
    cases q with
    | nil =>
      have hbehind := congrArg (afterFirst? ')') (List.cons.inj h).2
      rw [afterFirst?_append_cons (not_mem_close hv), afterFirst?_append_cons (not_mem_close hx)]
        at hbehind
      obtain rfl := Option.some.inj hbehind
      exact .inr ⟨u, rfl, fun y hy => .bracket hy hu⟩
    | cons d q =>
      obtain ⟨rfl, hinside⟩ := List.cons.inj h
      have hsplit : v ++ [')'] ++ (u ++ ')' :: t) = q ++ '(' :: (x ++ ')' :: s) := by
        simpa using hinside
      have hnot : '(' ∉ v ++ [')'] := by simpa using not_mem_open hv
      obtain ⟨q, rfl, hbehind⟩ := exists_of_not_mem_left hsplit hnot
      obtain ⟨r, rfl, ht⟩ | ⟨r, hs, hr⟩ := ih hbehind
      · exact .inl ⟨r, by simp, ht⟩
      · refine .inr ⟨r, hs, fun y hy => ?_⟩
        simpa using Shallow.bracket hv (hr y hy)

theorem shallow_plain (hu : Shallow u) (hx : ∀ c ∈ x, isPlain c = true)
    (h : u ++ ')' :: t = x ++ ')' :: s) : t = s := by
  induction hu generalizing x with
  | nil =>
    cases x with
    | nil => exact (List.cons.inj h).2
    | cons d x =>
      obtain ⟨rfl, -⟩ := List.cons.inj h
      exact absurd List.mem_cons_self (not_mem_close hx)
  | @plain c u hc hu ih =>
    cases x with
    | nil =>
      obtain ⟨rfl, -⟩ := List.cons.inj h
      exact absurd hc (by decide)
    | cons d x =>
      obtain ⟨-, hbehind⟩ := List.cons.inj h
      exact ih (List.forall_mem_cons.mp hx).2 hbehind
  | bracket hv hu ih =>
    cases x with
    | nil => simp at h
    | cons d x =>
      obtain ⟨rfl, -⟩ := List.cons.inj h
      exact absurd List.mem_cons_self (not_mem_open hx)

/-- A call at the start of a text either ends before another call, which has no brackets among its
arguments, or holds it, whatever the arguments of that one are. -/
theorem FunctionCall.around (hw : FunctionCall w) (hname : ∀ c ∈ name, isCallChar c = true)
    (hx : ∀ c ∈ x, isPlain c = true) (h : w ++ t = p ++ (name ++ '(' :: (x ++ ')' :: s))) :
    (∃ r, p = w ++ r ∧ t = r ++ (name ++ '(' :: (x ++ ')' :: s))) ∨
      ∃ r, s = r ++ t ∧ ∀ y, (∀ c ∈ y, isPlain c = true) →
        FunctionCall (p ++ (name ++ '(' :: (y ++ ')' :: r))) := by
  have hbracket : '(' ∉ name ∧ ')' ∉ name :=
    ⟨fun hm => absurd (hname '(' hm) (by decide), fun hm => absurd (hname ')' hm) (by decide)⟩
  obtain @⟨called, u, hne, hcalled, hu⟩ := hw
  have hsplit : called ++ '(' :: (u ++ ')' :: t) = p ++ name ++ '(' :: (x ++ ')' :: s) := by
    simpa using h
  -- The bracket of the other call opens the arguments of this one or stands among them.
  obtain ⟨q, hfront, hbehind⟩ :=
    exists_of_not_mem_left hsplit fun hm => absurd (hcalled '(' hm) (by decide)
  cases q with
  | nil =>
    obtain ⟨-, hbehind⟩ := List.cons.inj hbehind
    obtain rfl := shallow_plain hu hx hbehind
    rw [List.append_nil] at hfront
    refine .inr ⟨[], rfl, fun y hy => ?_⟩
    rw [← List.append_assoc, hfront]
    exact .of hne hcalled (shallow_of_plain hy)
  | cons d q =>
    obtain ⟨rfl, hinside⟩ := List.cons.inj hbehind
    obtain ⟨p, rfl, rfl⟩ := exists_of_not_mem_right hfront hbracket.1
    obtain ⟨r, hr, ht⟩ | ⟨r, rfl, hr⟩ := shallow_around hu hx hinside
    · obtain ⟨p, rfl, rfl⟩ := exists_of_not_mem_right hr hbracket.2
      exact .inl ⟨p, by simp, by simpa using ht⟩
    · refine .inr ⟨r ++ [')'], by simp, fun y hy => ?_⟩
      simpa using FunctionCall.of hne hcalled (hr y hy)

/-- What stands between the brackets of a call makes no difference to the blanked text. -/
theorem Blanked.arguments (h : Blanked v m) (hne : name ≠ [])
    (hname : ∀ c ∈ name, isCallChar c = true) (hx : ∀ c ∈ x, isPlain c = true)
    (hy : ∀ c ∈ y, isPlain c = true) (hv : v = p ++ (name ++ '(' :: (x ++ ')' :: s))) :
    Blanked (p ++ (name ++ '(' :: (y ++ ')' :: s))) m := by
  induction h generalizing p with
  | nil => simp at hv
  | @call w t m hw h ih =>
    obtain ⟨r, rfl, ht⟩ | ⟨r, rfl, hr⟩ := hw.around hname hx hv
    · rw [List.append_assoc]
      exact .call hw (ih ht)
    · have hcall := Blanked.call (hr y hy) h
      simpa using hcall
  | @plain c v m hc h ih =>
    cases p with
    | nil =>
      exact absurd (.of hne hname (shallow_of_plain hx)) (hc _ s (by simpa using hv))
    | cons d p =>
      obtain ⟨rfl, hbehind⟩ := List.cons.inj hv
      -- A call that begins here with the new arguments would begin here with the old ones.
      refine .plain (fun w t hs hw => ?_) (ih hbehind)
      rw [hv] at hc
      obtain ⟨r, hp, -⟩ | ⟨r, rfl, hr⟩ := hw.around (p := c :: p) hname hy hs.symm
      · exact hc w _ (by rw [hp, List.append_assoc]) hw
      · exact hc _ t (by simp) (hr x hx)

theorem masked_arguments (hne : name ≠ []) (hname : ∀ c ∈ name, isCallChar c = true)
    (hx : ∀ c ∈ x, isPlain c = true) (hy : ∀ c ∈ y, isPlain c = true) (p s : List Char) :
    masked (p ++ (name ++ '(' :: (x ++ ')' :: s))) =
      masked (p ++ (name ++ '(' :: (y ++ ')' :: s))) :=
  ((blanked_masked _).arguments hne hname hx hy rfl).masked_eq.symm

theorem slotText?_congr (himage : slot ≠ .image) (hcolor : slot ≠ .color) (s t m : List Char) :
    slotText? s m slot = slotText? t m slot := by
  cases slot <;> first | rfl | contradiction

/-- What stands between the brackets of a function call is not taken for the word of any slot but the
image and the color, whatever stands around the call. -/
theorem expand_arguments (policy : DuplicatePolicy) (important : Bool) (p s : String)
    {name x y : String} (hne : name ≠ "") (hname : ∀ c ∈ name.toList, isCallChar c = true)
    (hx : ∀ c ∈ x.toList, isPlain c = true) (hy : ∀ c ∈ y.toList, isPlain c = true) :
    ∃ value value' : BackgroundSlot → String,
      Shorthand.expand ⟨.background, policy⟩
          ⟨"background", p ++ name ++ "(" ++ x ++ ")" ++ s, important⟩ =
        .ok (BackgroundSlot.all.map fun slot => ⟨slot.longhand, value slot, important⟩) ∧
      Shorthand.expand ⟨.background, policy⟩
          ⟨"background", p ++ name ++ "(" ++ y ++ ")" ++ s, important⟩ =
        .ok (BackgroundSlot.all.map fun slot => ⟨slot.longhand, value' slot, important⟩) ∧
      ∀ slot, slot ≠ .image → slot ≠ .color → value slot = value' slot := by
  refine ⟨_, _, expand_eq policy _ important, expand_eq policy _ important,
    fun slot himage hcolor => ?_⟩
  have hfilled : name.toList ≠ [] := by simpa using hne
  have htext (z : String) : (p ++ name ++ "(" ++ z ++ ")" ++ s).toList =
      p.toList ++ (name.toList ++ '(' :: (z.toList ++ ')' :: s.toList)) := by
    simp [String.toList_append]
  rw [htext, htext, masked_arguments hfilled hname hx hy,
    slotText?_congr himage hcolor (p.toList ++ (name.toList ++ '(' :: (x.toList ++ ')' :: s.toList)))]

/-- A call that holds the other one takes its neighbours away with it. -/
theorem expand_arguments_nested :
    "Url-" ≠ "" ∧ (∀ c ∈ "Url-".toList, isCallChar c = true) ∧
      (∀ c ∈ " top /".toList, isPlain c = true) ∧ (∀ c ∈ "".toList, isPlain c = true) ∧
      ∃ value value' : BackgroundSlot → String,
        Shorthand.expand ⟨.background, .last⟩
            ⟨"background", "a( left Url-( top /) fixed) ) 1px", true⟩ =
          .ok (BackgroundSlot.all.map fun slot => ⟨slot.longhand, value slot, true⟩) ∧
        Shorthand.expand ⟨.background, .last⟩ ⟨"background", "a( left Url-() fixed) ) 1px", true⟩ =
          .ok (BackgroundSlot.all.map fun slot => ⟨slot.longhand, value' slot, true⟩) ∧
        ∀ slot, slot ≠ .image → slot ≠ .color → value slot = value' slot := by
  have hne : "Url-" ≠ "" := by decide
  have hname : ∀ c ∈ "Url-".toList, isCallChar c = true := List.all_eq_true.mp (by decide)
  have hx : ∀ c ∈ " top /".toList, isPlain c = true := List.all_eq_true.mp (by decide)
  have hy : ∀ c ∈ "".toList, isPlain c = true := List.all_eq_true.mp (by decide)
  have hfirst : "a( left " ++ "Url-" ++ "(" ++ " top /" ++ ")" ++ " fixed) ) 1px" =
      "a( left Url-( top /) fixed) ) 1px" := by decide
  have hsecond : "a( left " ++ "Url-" ++ "(" ++ "" ++ ")" ++ " fixed) ) 1px" =
      "a( left Url-() fixed) ) 1px" := by decide
  have hsame := expand_arguments .last true "a( left " " fixed) ) 1px" hne hname hx hy
  rw [hfirst, hsecond] at hsame
  exact ⟨hne, hname, hx, hy, hsame⟩

end StyleFold.BackgroundShorthand
