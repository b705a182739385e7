import StyleFold.Proofs.Pattern.Language

/-! The characters of the texts that a pattern can match, and the words among patterns. -/
namespace StyleFold.Pattern
open Text

variable {n : Nat} {p q : Pattern} {ps : List Pattern} {c d : Cursor} {w : List Char}
  {f accepts : Char → Bool}

theorem all_induction {motive : Pattern → Prop} (empty : motive empty)
    (seq : ∀ p q, motive p → motive q → motive (seq p q)) (h : ∀ p ∈ ps, motive p) :
    motive (all ps) := by
  induction ps with
  | nil => exact empty
  | cons p ps ih =>
    obtain ⟨hp, hps⟩ := List.forall_mem_cons.mp h
    cases ps with
    | nil => exact hp
    | cons q ps => exact seq p _ hp (ih hps)

theorem any_induction {motive : Pattern → Prop} (none : motive (char fun _ => false))
    (alt : ∀ p q, motive p → motive q → motive (alt p q)) (h : ∀ p ∈ ps, motive p) :
    motive (any ps) := by
  induction ps with
  | nil => exact none
  | cons p ps ih =>
    obtain ⟨hp, hps⟩ := List.forall_mem_cons.mp h
    cases ps with
    | nil => exact hp
    | cons q ps => exact alt p _ hp (ih hps)

def Within (f : Char → Bool) (p : Pattern) : Prop :=
  ∀ w, Language p w → ∀ c ∈ w, f c = true

def Filled (p : Pattern) : Prop :=
  ∀ w, Language p w → w ≠ []

namespace Within

theorem empty : Within f empty := by
  rintro w rfl
  simp

theorem char (h : ∀ c, accepts c = true → f c = true) : Within f (char accepts) := by
  rintro w ⟨x, rfl, hx⟩
  exact List.forall_mem_singleton.mpr (h x hx)

theorem span {eager : Bool} (h : ∀ c, accepts c = true → f c = true) :
    Within f (span eager accepts) :=
  fun _ hw c hc => h c (hw c hc)

theorem seq (hp : Within f p) (hq : Within f q) : Within f (seq p q) := by
  rintro w ⟨u, v, rfl, hu, hv⟩
  exact List.forall_mem_append.mpr ⟨hp u hu, hq v hv⟩

theorem alt (hp : Within f p) (hq : Within f q) : Within f (alt p q) :=
  fun w hw => hw.elim (hp w) (hq w)

theorem optional (hp : Within f p) : Within f (optional p) :=
  hp.alt empty

theorem many1 (h : ∀ c, accepts c = true → f c = true) : Within f (many1 accepts) :=
  (char h).seq (span h)

theorem all (h : ∀ p ∈ ps, Within f p) : Within f (all ps) :=
  all_induction empty (fun _ _ => seq) h

end Within

namespace Filled

theorem char : Filled (char accepts) := by
  rintro w ⟨x, rfl, -⟩
  simp

theorem seq_left (hp : Filled p) (q : Pattern) : Filled (seq p q) := by
  rintro w ⟨u, v, rfl, hu, -⟩
  simp [hp u hu]

theorem seq_right (p : Pattern) (hq : Filled q) : Filled (seq p q) := by
  rintro w ⟨u, v, rfl, -, hv⟩
  simp [hq v hv]

theorem alt (hp : Filled p) (hq : Filled q) : Filled (alt p q) :=
  fun w hw => hw.elim (hp w) (hq w)

theorem many1 : Filled (many1 accepts) :=
  char.seq_left _

end Filled

theorem lower_of_letters {cs : List Char} (h : Language (all (cs.map anyCase)) w) :
    lower w = lower cs := by
  induction cs generalizing w with
  | nil =>
    obtain rfl : w = [] := h
    rfl
  | cons c cs ih =>
    have hletter {x : List Char} (hx : Language (anyCase c) x) : lower x = [c.toLower] := by
      obtain ⟨y, rfl, hy⟩ := hx
      exact congrArg (· :: []) (beq_iff_eq.mp hy)
    cases cs with
    | nil => exact hletter h
    | cons d cs =>
      obtain ⟨u, v, rfl, hu, hv⟩ := h
      rw [lower_append, hletter hu, ih hv]
      rfl

theorem lower_of_word {s : String} (h : Language (word s) w) : lower w = lower s.toList :=
  lower_of_letters h

theorem exists_of_any (h : Language (any ps) w) : ∃ p ∈ ps, Language p w := by
  induction ps with
  | nil =>
    obtain ⟨x, -, hx⟩ := h
    contradiction
  | cons p ps ih =>
    cases ps with
    | nil => exact ⟨p, List.mem_cons_self, h⟩
    | cons q ps =>
      obtain h | h := h
      · exact ⟨p, List.mem_cons_self, h⟩
      · obtain ⟨r, hr, hw⟩ := ih h
        exact ⟨r, List.mem_cons_of_mem _ hr, hw⟩

theorem mem_insertByLength {v u : String} {ws : List String} :
    v ∈ insertByLength u ws ↔ v = u ∨ v ∈ ws := by
  induction ws with
  | nil => simp [insertByLength]
  | cons x ws ih =>
    rw [insertByLength]
    split
    · simp
    · rw [List.mem_cons, ih, List.mem_cons]
      tauto

theorem mem_longestFirst {v : String} {ws : List String} : v ∈ longestFirst ws ↔ v ∈ ws := by
  induction ws with
  | nil => rfl
  | cons u ws ih =>
    rw [longestFirst, List.foldr_cons, mem_insertByLength, ← longestFirst, ih, List.mem_cons]

theorem exists_of_oneOf {ws : List String} (h : Language (oneOf ws) w) :
    ∃ v ∈ ws, lower w = lower v.toList := by
  obtain ⟨p, hp, hw⟩ := exists_of_any h
  obtain ⟨v, hv, rfl⟩ := List.mem_map.mp hp
  exact ⟨v, mem_longestFirst.mp hv, lower_of_word hw⟩

theorem subgroups_all (h : ∀ p ∈ ps, subgroups p = []) : subgroups (all ps) = [] :=
  all_induction (motive := fun p => subgroups p = []) rfl
    (fun _ _ hp hq => List.append_eq_nil_iff.mpr ⟨hp, hq⟩) h

theorem subgroups_any (h : ∀ p ∈ ps, subgroups p = []) : subgroups (any ps) = [] :=
  any_induction (motive := fun p => subgroups p = []) rfl
    (fun _ _ hp hq => List.append_eq_nil_iff.mpr ⟨hp, hq⟩) h

@[simp] theorem subgroups_word (s : String) : subgroups (word s) = [] :=
  subgroups_all fun p hp => by
    obtain ⟨c, -, rfl⟩ := List.mem_map.mp hp
    rfl

@[simp] theorem subgroups_oneOf (ws : List String) : subgroups (oneOf ws) = [] :=
  subgroups_any fun p hp => by
    obtain ⟨v, -, rfl⟩ := List.mem_map.mp hp
    exact subgroups_word v

@[simp] theorem subgroups_optional (p : Pattern) : subgroups (optional p) = subgroups p :=
  List.append_nil _

theorem Went.groups_eq (h : Went p c d) (hp : subgroups p = []) : d.groups = c.groups := by
  obtain ⟨-, new, hnew, hgroups⟩ := h
  cases new with
  | nil => exact hnew
  | cons g new =>
    obtain ⟨q, hq, -⟩ := hgroups g List.mem_cons_self
    simp [hp] at hq

theorem mem_outcomes_all_concat (hps : ps ≠ []) :
    d ∈ outcomes n (all (ps ++ [q])) c ↔ ∃ e ∈ outcomes n (all ps) c, d ∈ outcomes n q e := by
  induction ps generalizing c with
  | nil => contradiction
  | cons p ps ih =>
    cases ps with
    | nil => exact mem_outcomes_seq
    | cons r ps =>
      refine mem_outcomes_seq.trans ⟨?_, ?_⟩
      · rintro ⟨e, he, hd⟩
        obtain ⟨e', he', hd⟩ := (ih (List.cons_ne_nil r ps)).mp hd
        exact ⟨e', mem_outcomes_seq.mpr ⟨e, he, he'⟩, hd⟩
      · rintro ⟨e', he', hd⟩
        obtain ⟨e, he, he'⟩ := mem_outcomes_seq.mp he'
        exact ⟨e, he, (ih (List.cons_ne_nil r ps)).mpr ⟨e', he', hd⟩⟩

theorem language_all_concat (hps : ps ≠ []) :
    Language (all (ps ++ [q])) w ↔ ∃ u v, w = u ++ v ∧ Language (all ps) u ∧ Language q v := by
  induction ps generalizing w with
  | nil => contradiction
  | cons p ps ih =>
    cases ps with
    | nil => exact Iff.rfl
    | cons r ps =>
      refine ⟨?_, ?_⟩
      · rintro ⟨u, v, rfl, hu, hv⟩
        obtain ⟨x, y, rfl, hx, hy⟩ := (ih (List.cons_ne_nil r ps)).mp hv
        exact ⟨u ++ x, y, by rw [List.append_assoc], ⟨u, x, rfl, hu, hx⟩, hy⟩
      · rintro ⟨u, v, rfl, ⟨x, y, rfl, hx, hy⟩, hv⟩
        exact ⟨x, y ++ v, List.append_assoc x y v, hx,
          (ih (List.cons_ne_nil r ps)).mpr ⟨y, v, rfl, hy, hv⟩⟩

theorem exists_group?_of_mem {index : Nat} (h : d ∈ outcomes n (group index p) c) :
    ∃ w, d.group? index = some w ∧ Language p w ∧ c.rest = w ++ d.rest := by
  obtain ⟨e, he, rfl⟩ := mem_outcomes_group.mp h
  obtain ⟨⟨w, hw, hlang⟩, -⟩ := went_of_mem he
  refine ⟨w, ?_, hlang, hw⟩
  rw [Cursor.group?, List.find?_cons_of_pos (by simp)]
  exact congrArg some (by rw [hw, between_append])

end StyleFold.Pattern
