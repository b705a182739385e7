import StyleFold.Proofs.Pattern.Within
import StyleFold.Proofs.Text.Trim
import StyleFold.Reader.Lenient

/-! What the lenient reader finds along a text. -/
namespace StyleFold.Reader.Lenient
open Text Pattern

variable {n : Nat} {first : Bool} {s t name gap : List Char}

def isNameLetter (c : Char) : Bool :=
  isLetter c || c == '-'

structure Stripped (s : List Char) : Prop where
  filled : s ≠ []
  head : ∀ c ∈ s.head?, isGap c = false
  last : ∀ c ∈ s.getLast?, isGap c = false

theorem Stripped.append {u v : List Char} (hu : Stripped u) (hv : Stripped v) (m : List Char) :
    Stripped (u ++ (m ++ v)) := by
  refine ⟨by simp [hu.filled], ?_, ?_⟩
  · rw [List.head?_append_of_ne_nil _ hu.filled]
    exact hu.head
  · rw [← List.append_assoc, List.getLast?_append_of_ne_nil _ hv.filled]
    exact hv.last

theorem not_isGap_of_not_isBlank {c : Char} (h : isBlank c = false) : isGap c = false := by
  rw [← Bool.not_eq_true]
  intro hgap
  rw [isBlank_of_isGap hgap] at h
  contradiction

theorem exists_not_gap {u v : List Char} (hlast : ∀ c ∈ s.getLast?, isGap c = false)
    (hs : s = u ++ v) (hv : v ≠ []) : ∃ c ∈ v, isGap c = false := by
  obtain ⟨c, hc⟩ := List.getLast?_isSome.mpr hv |> Option.isSome_iff_exists.mp
  refine ⟨c, List.mem_of_getLast? hc, hlast c ?_⟩
  rw [hs, List.getLast?_append, hc]
  rfl

theorem exists_stripped (hs : trim s ≠ []) : ∃ a m b, s = a ++ (m ++ b) ∧ Stripped m ∧
    (∀ c ∈ a, isGap c = true) ∧ (∀ c ∈ b, isGap c = true) ∧ trim m = trim s := by
  obtain ⟨a, m, b, hsplit, ha, hb, hhead, hlast⟩ := exists_strip isGap s
  have htrim : trim m = trim s := by
    rw [hsplit, trim_pad (fun c hc => isBlank_of_isGap (ha c hc))
      fun c hc => isBlank_of_isGap (hb c hc)]
  refine ⟨a, m, b, by rw [hsplit, List.append_assoc], ⟨?_, hhead, hlast⟩, ha, hb, htrim⟩
  rintro rfl
  exact hs htrim.symm

/-- Behind part of a stripped value the value goes on, whatever gaps are passed over. -/
theorem run_end_none {v : List Char} {groups : List (Nat × List Char × List Char)}
    {next : Continuation Cursor} (hv : ∃ c ∈ v, isGap c = false) (hsemi : ';' ∉ v)
    (t : List Char) :
    run n (many isGap) ⟨false, v ++ t, groups⟩
      (fun c => run n (alt (symbol ';') endOfText) c next) = none := by
  refine run_many_none fun a b hab ha => ?_
  -- The gaps passed over are a part of `v` because `v` has a character that is no gap.
  obtain ⟨c, hc, hgap⟩ := hv
  have hb : ∃ d r, b = d :: r ∧ d ∈ v := by
    obtain ⟨w, rfl, rfl⟩ | ⟨w, rfl, rfl⟩ := List.append_eq_append_iff.mp hab
    · have := ha c (by simp [hc])
      rw [hgap] at this
      contradiction
    · cases w with
      | nil =>
        have := ha c (by simpa using hc)
        rw [hgap] at this
        contradiction
      | cons d w => exact ⟨d, w ++ t, rfl, by simp⟩
  obtain ⟨d, r, rfl, hd⟩ := hb
  have hne : (d == ';') = false := by
    rw [beq_eq_false_iff_ne]
    rintro rfl
    exact hsemi hd
  simp [run, symbol, hne]

theorem declarationPattern_eq : declarationPattern = Pattern.all [
    group 1 (many1 isNameLetter), many isGap, symbol ':', many isGap, group 2 (few (· != ';')),
    many isGap, alt (symbol ';') endOfText] :=
  rfl

theorem isNameLetter_of_isGap {c : Char} (h : isGap c = true) : isNameLetter c = false := by
  simp only [isGap, isSpace, isNewline, Bool.or_eq_true, beq_iff_eq] at h
  rcases h with ((rfl | rfl) | (rfl | rfl) | rfl) | rfl <;> decide

/-- A declaration ends at a semicolon or with the text: `Ends stop rest` says which it is and what
is left. -/
inductive Ends : List Char → List Char → Prop
  | semicolon {rest : List Char} : Ends [';'] rest
  | text : Ends [] []

theorem Ends.not_isGap {stop rest : List Char} (h : Ends stop rest) :
    ∀ c ∈ (stop ++ rest).head?, isGap c = false := by
  cases h with
  | semicolon =>
    intro c hc
    cases hc
    decide
  | text => simp

theorem match?_declaration {gap' value gap'' stop rest tail behind : List Char}
    (htail : tail = gap'' ++ (stop ++ rest))
    (hbehind : behind = gap ++ ':' :: (gap' ++ (value ++ tail))) (hname : name ≠ [])
    (hletters : ∀ c ∈ name, isNameLetter c = true) (hgap : ∀ c ∈ gap, isGap c = true)
    (hgap' : ∀ c ∈ gap', isGap c = true) (hstart : ∀ c ∈ (value ++ tail).head?, isGap c = false)
    (hlast : ∀ c ∈ value.getLast?, isGap c = false) (hsemi : ';' ∉ value)
    (hgap'' : ∀ c ∈ gap'', isGap c = true) (hstop : Ends stop rest) :
    match? n declarationPattern first (name ++ behind) =
      some ⟨false, rest, [(2, value ++ tail, tail), (1, name ++ behind, behind)]⟩ := by
  obtain ⟨c, name, rfl⟩ := List.exists_cons_of_ne_nil hname
  have hfirst : ∀ d ∈ behind.head?, isNameLetter d = false := by
    subst hbehind
    rintro d hd
    cases gap with
    | nil =>
      cases hd
      decide
    | cons g gap =>
      cases hd
      exact isNameLetter_of_isGap (hgap d List.mem_cons_self)
  rw [match?, declarationPattern_eq]
  simp only [Pattern.all, run_seq, run_group, many1, List.cons_append]
  rw [run_char (hletters c List.mem_cons_self)]
  refine run_many (fun d hd => hletters d (List.mem_cons_of_mem _ hd)) hfirst ?_
  subst hbehind
  refine run_many hgap (fun d hd => by cases hd; decide) ?_
  rw [symbol, run_char (by decide)]
  refine run_many hgap' hstart ?_
  refine run_few (fun d hd => ?_) (fun u v huv hv => ?_) ?_
  · rw [bne_iff_ne]
    rintro rfl
    exact hsemi hd
  · have hv' := exists_not_gap hlast huv hv
    exact run_end_none hv' (fun hm => hsemi (huv ▸ List.mem_append_right u hm)) tail
  subst htail
  refine run_many hgap'' hstop.not_isGap ?_
  cases hstop with
  | semicolon => rfl
  | text => rfl

/-- Every exclamation mark is followed by a hyphen, as in the mark that opens a comment. -/
def Unmarked (s : List Char) : Prop :=
  ∀ u v, s = u ++ '!' :: v → v.head? = some '-'

theorem Unmarked.of_pad {a m b : List Char} (h : Unmarked (a ++ (m ++ b)))
    (hb : ∀ c ∈ b, isGap c = true) : Unmarked m := by
  intro u v huv
  have hv := h (a ++ u) (v ++ b) (by simp [huv])
  cases v with
  | nil =>
    rw [List.nil_append] at hv
    exact absurd (hb '-' (List.mem_of_head? hv)) (by decide)
  | cons c v => exact hv

def IsMark (s : List Char) : Prop :=
  ∃ a b w, s = a ++ '!' :: (b ++ w) ∧ (∀ c ∈ a, isGap c = true) ∧ (∀ c ∈ b, isGap c = true) ∧
    sameWord w "important".toList = true

def EndsMarked (s : List Char) : Prop :=
  ∃ m, m <:+ s ∧ IsMark m

theorem EndsMarked.of_suffix {u : List Char} (h : EndsMarked u) (hu : u <:+ s) : EndsMarked s := by
  obtain ⟨m, hm, hmark⟩ := h
  exact ⟨m, hm.trans hu, hmark⟩

theorem EndsMarked.exists_front (h : EndsMarked s) : ∃ front m, s = front ++ m ∧ IsMark m ∧
    ∀ c ∈ front.getLast?, isGap c = false := by
  obtain ⟨m, ⟨u, rfl⟩, a, b, w, rfl, ha, hb, hw⟩ := h
  obtain ⟨front, gap, rfl, hgap, hlast⟩ := exists_trailing isGap u
  exact ⟨front, gap ++ (a ++ '!' :: (b ++ w)), by simp,
    ⟨gap ++ a, b, w, by simp, List.forall_mem_append.mpr ⟨hgap, ha⟩, hb, hw⟩, hlast⟩

theorem Unmarked.not_endsMarked (h : Unmarked s) : ¬EndsMarked s := by
  rintro ⟨m, ⟨u, rfl⟩, a, b, w, rfl, -, hb, hw⟩
  have hhead := h (u ++ a) (b ++ w) (by rw [List.append_assoc])
  cases b with
  | nil =>
    -- No letter of the word is a hyphen.
    cases w with
    | nil => cases hhead
    | cons c w =>
      obtain rfl : c = '-' := Option.some.inj hhead
      exact absurd (List.cons.inj (sameWord_iff.mp hw)).1 (by decide)
  | cons c b =>
    obtain rfl : c = '-' := Option.some.inj hhead
    exact absurd (hb '-' List.mem_cons_self) (by decide)

theorem isMark_of_match? {stop : Cursor} (h : match? n importantPattern first s = some stop) :
    IsMark s := by
  have hpattern : importantPattern = Pattern.all
      ([many isGap, symbol '!', many isGap, Pattern.word "important"] ++ [endOfText]) := rfl
  rw [match?_eq_head?, hpattern] at h
  obtain ⟨d, hd, hend⟩ := (mem_outcomes_all_concat (by simp)).mp (List.mem_of_head? h)
  obtain ⟨w, hs, a, _, rfl, ha, _, _, rfl, ⟨c, rfl, hc⟩, b, word, rfl, hb, hword⟩ :=
    (went_of_mem hd).text
  obtain rfl : c = '!' := beq_iff_eq.mp hc
  have hrest : d.rest = [] := by
    by_contra hne
    simp [outcomes, hne] at hend
  refine ⟨a, b, word, ?_, ha, hb, sameWord_iff.mpr (lower_of_word hword)⟩
  simpa [hrest] using hs

/-- A mark has a single exclamation mark, so only gaps can lengthen it to the front. -/
theorem IsMark.gap_of_append {u m : List Char} (hm : IsMark m) (h : IsMark (u ++ m)) :
    ∀ c ∈ u, isGap c = true := by
  obtain ⟨a, b, w, rfl, -, -, -⟩ := hm
  obtain ⟨a', b', w', hsplit, ha', hb', hw'⟩ := h
  have hgap {s : List Char} (hs : ∀ c ∈ s, isGap c = true) : '!' ∉ s := fun hmem =>
    absurd (hs '!' hmem) (by decide)
  have hword : '!' ∉ w' := fun hmem => by
    have := List.mem_map_of_mem (f := Char.toLower) hmem
    rw [← lower, sameWord_iff.mp hw'] at this
    exact absurd this (by decide)
  have hbehind : '!' ∉ b' ++ w' := fun hmem => (List.mem_append.mp hmem).elim (hgap hb') hword
  rw [← List.append_assoc, eq_comm,
    List.append_cons_inj_of_notMem (hgap ha') hbehind] at hsplit
  intro c hc
  exact ha' c (by rw [hsplit.1]; exact List.mem_append_left a hc)

theorem match?_important (h : IsMark s) :
    match? n importantPattern first s = some ⟨false, [], []⟩ := by
  obtain ⟨a, b, w, rfl, ha, hb, hw⟩ := h
  have hne : w ≠ [] := by
    rintro rfl
    exact absurd hw (by decide)
  have hhead : ∀ c ∈ (w ++ []).head?, isGap c = false := by
    rw [List.append_nil]
    intro c hc
    obtain ⟨r, rfl⟩ : ∃ r, w = c :: r := by
      cases w with
      | nil => simp at hc
      | cons d r => exact ⟨r, by simpa using hc⟩
    have hi : c.toLower = 'i' := (List.cons.inj (sameWord_iff.mp hw)).1
    rw [← Bool.not_eq_true]
    intro hgap
    simp only [isGap, isSpace, isNewline, Bool.or_eq_true, beq_iff_eq] at hgap
    rcases hgap with ((rfl | rfl) | (rfl | rfl) | rfl) | rfl <;> exact absurd hi (by decide)
  simp only [match?, importantPattern, Pattern.all, run_seq]
  refine run_many ha (fun c hc => by cases hc; decide) ?_
  rw [symbol, run_char (by decide), ← List.append_nil w]
  refine run_many hb hhead ?_
  exact run_letters (sameWord_iff.mp hw) hne rfl

theorem beforeMatch_plain (w : List Char) (ps : List Piece) :
    beforeMatch (w.map Piece.plain ++ ps) = w ++ beforeMatch ps := by
  induction w with
  | nil => rfl
  | cons c w ih => simp [beforeMatch, ih]

theorem splitPriority_normal {value : List Char} (h : ¬EndsMarked value) :
    splitPriority value = (value, false) := by
  have hplain : piecesFrom value.length importantPattern 0 true (value ++ []) = _ :=
    piecesFrom_plain fun u v huv _ first => by
      rw [List.append_nil]
      by_contra hne
      obtain ⟨stop, hstop⟩ := Option.ne_none_iff_exists'.mp hne
      exact h ⟨v, ⟨u, huv.symm⟩, isMark_of_match? hstop⟩
  rw [List.append_nil, piecesFrom, List.append_nil] at hplain
  have hbefore := beforeMatch_plain value []
  rw [List.append_nil] at hbefore
  simp [splitPriority, pieces, hplain, hbefore, beforeMatch, Piece.match?]

theorem splitPriority_important {front m : List Char}
    (hlast : ∀ c ∈ front.getLast?, isGap c = false) (hm : IsMark m) :
    splitPriority (front ++ m) = (front, true) := by
  have hplain (n : Nat) : piecesFrom n importantPattern 0 true (front ++ m) = _ :=
    piecesFrom_plain fun u v huv hv first => by
      by_contra hne
      obtain ⟨stop, hstop⟩ := Option.ne_none_iff_exists'.mp hne
      obtain ⟨c, hc, hgap⟩ := exists_not_gap hlast huv hv
      rw [hm.gap_of_append (isMark_of_match? hstop) c hc] at hgap
      contradiction
  have hfilled : m ≠ [] := by
    obtain ⟨a, b, w, rfl, -⟩ := hm
    simp
  have hfound (n : Nat) (first : Bool) : piecesFrom n importantPattern 0 first (m ++ []) =
      .found ⟨m, ⟨false, [], []⟩⟩ :: piecesFrom n importantPattern 0 false [] :=
    piecesFrom_found (by rw [List.append_nil]; exact match?_important hm) rfl hfilled
  simp only [List.append_nil] at hfound
  simp [splitPriority, pieces, hplain, hfound, beforeMatch_plain, beforeMatch, Piece.match?]

theorem splitPriority_snd_iff : (splitPriority s).2 = true ↔ EndsMarked s := by
  by_cases h : EndsMarked s
  · obtain ⟨front, m, rfl, hm, hlast⟩ := h.exists_front
    simp [splitPriority_important hlast hm, h]
  · simp [splitPriority_normal h, h]

/-- The declarations found from a place of a text on. -/
def declarationsFrom (n : Nat) (first : Bool) (s : List Char) : List Declaration :=
  ((piecesFrom n declarationPattern 0 first s).filterMap Piece.match?).map toDeclaration

theorem read_eq (s : String) : read s = declarationsFrom s.toList.length true s.toList :=
  rfl

theorem declarationsFrom_skip (h : ∀ c ∈ s, isNameLetter c = false) :
    declarationsFrom n first (s ++ t) = declarationsFrom n (first && s.isEmpty) t := by
  rw [declarationsFrom, piecesFrom_plain, List.filterMap_append, List.map_append]
  · simp [declarationsFrom, Piece.match?]
  · intro u v huv hv first
    obtain ⟨c, v, rfl⟩ := List.exists_cons_of_ne_nil hv
    rw [match?, declarationPattern_eq]
    simp only [Pattern.all, run_seq, run_group, many1]
    refine run_char_none fun d hd => ?_
    cases hd
    exact h c (by simp [huv])

def declared (name value : List Char) : Declaration :=
  (Declaration.of (String.ofList name)
    (String.ofList (trim (splitPriority value).1))).withPriority (splitPriority value).2

theorem toDeclaration_eq {m : Match} {value : List Char} (hname : m.group? 1 = some name)
    (hvalue : m.group? 2 = some value) : toDeclaration m = declared name value := by
  simp only [toDeclaration, declared, hname, hvalue, Option.getD_some]

theorem declarationsFrom_ends {stop rest : List Char} (h : Ends stop rest) :
    declarationsFrom n first (stop ++ rest) = declarationsFrom n false rest := by
  cases h with
  | semicolon =>
    rw [declarationsFrom_skip (List.forall_mem_singleton.mpr (by decide))]
    simp
  | text => rfl

theorem declarationsFrom_found {m : Match}
    (h : piecesFrom n declarationPattern 0 first s =
      .found m :: piecesFrom n declarationPattern 0 false t) :
    declarationsFrom n first s = toDeclaration m :: declarationsFrom n false t := by
  simp [declarationsFrom, h, Piece.match?]

/-- A name, a colon and a value up to the next semicolon or the end of the text are one declaration,
also where the value is empty. -/
theorem declarationsFrom_match {gap' value gap'' stop rest tail : List Char}
    (htail : tail = gap'' ++ (stop ++ rest)) (hname : name ≠ [])
    (hletters : ∀ c ∈ name, isNameLetter c = true) (hgap : ∀ c ∈ gap, isGap c = true)
    (hgap' : ∀ c ∈ gap', isGap c = true) (hstart : ∀ c ∈ (value ++ tail).head?, isGap c = false)
    (hlast : ∀ c ∈ value.getLast?, isGap c = false) (hsemi : ';' ∉ value)
    (hgap'' : ∀ c ∈ gap'', isGap c = true) (hstop : Ends stop rest) :
    declarationsFrom n first (name ++ (gap ++ ':' :: (gap' ++ (value ++ tail)))) =
      declared name value :: declarationsFrom n false rest := by
  have hsplit : name ++ (gap ++ ':' :: (gap' ++ (value ++ tail))) =
      (name ++ (gap ++ ':' :: (gap' ++ (value ++ (gap'' ++ stop))))) ++ rest := by
    simp [htail]
  have hmatch : match? n declarationPattern first
      (name ++ (gap ++ ':' :: (gap' ++ (value ++ tail)))) = _ :=
    match?_declaration htail rfl hname hletters hgap hgap' hstart hlast hsemi hgap'' hstop
  rw [hsplit] at hmatch
  rw [hsplit, declarationsFrom_found (piecesFrom_found hmatch rfl (by simp [hname])),
    @toDeclaration_eq name _ value]
  · exact congrArg some (by rw [← hsplit, between_append])
  · exact congrArg some (between_append _ _)

theorem declarationsFrom_declaration {gap' value gap'' stop rest : List Char} (hname : name ≠ [])
    (hletters : ∀ c ∈ name, isNameLetter c = true) (hgap : ∀ c ∈ gap, isGap c = true)
    (hgap' : ∀ c ∈ gap', isGap c = true) (hvalue : Stripped value) (hsemi : ';' ∉ value)
    (hgap'' : ∀ c ∈ gap'', isGap c = true) (hstop : Ends stop rest) :
    declarationsFrom n first
        (name ++ (gap ++ ':' :: (gap' ++ (value ++ (gap'' ++ (stop ++ rest)))))) =
      declared name value :: declarationsFrom n false rest := by
  have hstart : ∀ c ∈ (value ++ (gap'' ++ (stop ++ rest))).head?, isGap c = false := by
    rw [List.head?_append_of_ne_nil _ hvalue.filled]
    exact hvalue.head
  exact declarationsFrom_match rfl hname hletters hgap hgap' hstart hvalue.last hsemi hgap'' hstop

end StyleFold.Reader.Lenient
