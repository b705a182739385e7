import StyleFold.Proofs.Lexeme.Identifier
import StyleFold.Proofs.Value.Spaced

/-!
A value in the eyes of a reader who knows quotes and brackets alone. Where such a reader can follow a
value to its end, the components of the value are the runs of text between the spaces that lie outside
strings and brackets.
-/
namespace StyleFold.Value
open Text Lexeme Token

variable {c d q : Char} {s t u v w : List Char} {ls : List Lexeme} {stack : List Bracket}

def isQuote (c : Char) : Bool :=
  c == '"' || c == '\''

def opened? : Char → Option Bracket
  | '(' => some .round
  | '[' => some .square
  | '\x7b' => some .curly
  | _ => none

def closed? : Char → Option Bracket
  | ')' => some .round
  | ']' => some .square
  | '\x7d' => some .curly
  | _ => none

/-- Where the reader stands: the quote that ends the string around, if there is one, and the brackets
that are open, innermost first. -/
structure Place where
  quote : Option Char
  brackets : List Bracket
deriving DecidableEq

namespace Place

def start : Place :=
  ⟨none, []⟩

/-- The place behind a character. Inside a string no character but its quote means anything. -/
def next (p : Place) (c : Char) : Place :=
  match p.quote with
  | some q => if c = q then ⟨none, p.brackets⟩ else p
  | none =>
    if isQuote c then ⟨some c, p.brackets⟩
    else
      match opened? c, closed? c with
      | some b, _ => ⟨none, b :: p.brackets⟩
      | none, some _ => ⟨none, p.brackets.tail⟩
      | none, none => p

def allows (p : Place) (c : Char) : Bool :=
  match p.quote, closed? c with
  | some _, _ => !isNewline c
  | none, some b => p.brackets.head? == some b
  | none, none => true

def splits (p : Place) (c : Char) : Bool :=
  p == start && isSpace c

def after (p : Place) (s : List Char) : Place :=
  s.foldl next p

@[simp] theorem after_nil (p : Place) : p.after [] = p :=
  rfl

@[simp] theorem after_cons (p : Place) (c : Char) (s : List Char) :
    p.after (c :: s) = (p.next c).after s :=
  rfl

theorem after_append (p : Place) (s t : List Char) : p.after (s ++ t) = (p.after s).after t :=
  List.foldl_append

end Place

def isBalanced : Place → List Char → Bool
  | p, [] => p == .start
  | p, c :: s => p.allows c && isBalanced (p.next c) s

/-- Whether the text begins with `url(` in any letter case, and no quote follows the spaces there. -/
def beginsBareUrl (s : List Char) : Bool :=
  sameWord (s.take 4) ['u', 'r', 'l', '('] && !((s.drop 4).dropWhile isSpace).head?.any isQuote

/-- Whether an address without quotes begins outside the strings. -/
def hasBareUrl : Place → List Char → Bool
  | _, [] => false
  | p, c :: s => (p.quote.isNone && beginsBareUrl (c :: s)) || hasBareUrl (p.next c) s

def cuts : Place → List Char → List (List Char)
  | _, [] => [[]]
  | p, c :: s =>
    if p.splits c then [] :: cuts (p.next c) s
    else (cuts (p.next c) s).modifyHead (c :: ·)

def filled (ss : List (List Char)) : List (List Char) :=
  ss.filter fun s => !s.isEmpty

/-- A text without escapes and comments that the reader can follow from a place to the end. -/
structure Legible (p : Place) (s : List Char) : Prop where
  plain : '\\' ∉ s
  uncommented : ¬['/', '*'] <:+: s
  balanced : isBalanced p s = true
  quoted : hasBareUrl p s = false

theorem Legible.iff_and {p : Place} : Legible p s ↔ '\\' ∉ s ∧ ¬['/', '*'] <:+: s ∧
    isBalanced p s = true ∧ hasBareUrl p s = false :=
  ⟨fun ⟨h₁, h₂, h₃, h₄⟩ => ⟨h₁, h₂, h₃, h₄⟩, fun ⟨h₁, h₂, h₃, h₄⟩ => ⟨h₁, h₂, h₃, h₄⟩⟩

instance (p : Place) (s : List Char) : Decidable (Legible p s) :=
  decidable_of_iff _ Legible.iff_and.symm

namespace Legible

variable {p : Place}

theorem of_cons (h : Legible p (c :: s)) : Legible (p.next c) s := by
  obtain ⟨hplain, huncommented, hbalanced, hquoted⟩ := h
  rw [isBalanced, Bool.and_eq_true] at hbalanced
  rw [hasBareUrl, Bool.or_eq_false_iff] at hquoted
  exact ⟨List.not_mem_of_not_mem_cons hplain, fun hm => huncommented (List.infix_cons hm),
    hbalanced.2, hquoted.2⟩

theorem behind (h : Legible p (w ++ s)) : Legible (p.after w) s := by
  induction w generalizing p with
  | nil => exact h
  | cons c w ih => exact ih h.of_cons

theorem allowed (h : Legible p (c :: s)) : p.allows c = true :=
  (Bool.and_eq_true_iff.mp h.balanced).1

end Legible

def isInert (c : Char) : Bool :=
  !(['"', '\'', '(', ')', '[', ']', '\x7b', '\x7d'].contains c)

theorem isInert_of {p : Char → Bool} (hc : p c = true)
    (hp : (['"', '\'', '(', ')', '[', ']', '\x7b', '\x7d'].all fun d => !p d) = true) :
    isInert c = true := by
  rw [isInert, Bool.not_eq_true', ← Bool.not_eq_true, List.contains_iff_mem]
  intro hm
  have hnot := List.all_eq_true.mp hp c hm
  rw [hc] at hnot
  contradiction

theorem next_of_isInert (hc : isInert c = true) (stack : List Bracket) :
    Place.next ⟨none, stack⟩ c = ⟨none, stack⟩ := by
  simp only [isInert, Bool.not_eq_true', ← Bool.not_eq_true, List.contains_iff_mem, List.mem_cons,
    List.not_mem_nil, or_false, not_or] at hc
  obtain ⟨hdouble, hsingle, hround, hround', hsquare, hsquare', hcurly, hcurly'⟩ := hc
  have hquote : isQuote c = false := by simp [isQuote, hdouble, hsingle]
  have hopened : opened? c = none := by
    rw [opened?.eq_def]
    split <;> first | rfl | contradiction
  have hclosed : closed? c = none := by
    rw [closed?.eq_def]
    split <;> first | rfl | contradiction
  simp [Place.next, hquote, hopened, hclosed]

theorem after_of_isInert (hw : ∀ c ∈ w, isInert c = true) :
    Place.after ⟨none, stack⟩ w = ⟨none, stack⟩ := by
  induction w with
  | nil => rfl
  | cons c w ih =>
    obtain ⟨hc, hw⟩ := List.forall_mem_cons.mp hw
    rw [Place.after_cons, next_of_isInert hc, ih hw]

def isSolid : Place → List Char → Bool
  | _, [] => true
  | p, c :: s => !p.splits c && isSolid (p.next c) s

theorem isSolid_of_not_isSpace {p : Place} (hw : ∀ c ∈ w, isSpace c = false) :
    isSolid p w = true := by
  induction w generalizing p with
  | nil => rfl
  | cons c w ih =>
    obtain ⟨hc, hw⟩ := List.forall_mem_cons.mp hw
    simp [isSolid, Place.splits, hc, ih hw]

theorem cuts_ne_nil (p : Place) (s : List Char) : cuts p s ≠ [] := by
  induction s generalizing p with
  | nil => simp [cuts]
  | cons c s ih =>
    rw [cuts]
    split
    · simp
    · obtain ⟨u, us, hu⟩ := List.exists_cons_of_ne_nil (ih (p.next c))
      simp [hu]

theorem cuts_append {p : Place} (hw : isSolid p w = true) (s : List Char) :
    cuts p (w ++ s) = (cuts (p.after w) s).modifyHead (w ++ ·) := by
  induction w generalizing p with
  | nil =>
    obtain ⟨u, us, hu⟩ := List.exists_cons_of_ne_nil (cuts_ne_nil p s)
    simp [hu]
  | cons c w ih =>
    rw [isSolid, Bool.and_eq_true, Bool.not_eq_true'] at hw
    obtain ⟨hc, hw⟩ := hw
    rw [List.cons_append, cuts, hc, ih hw, Place.after_cons]
    simp [Function.comp_def]

/-- The reader goes over a string as over one character. -/
theorem after_stringBody (h : Legible ⟨some q, stack⟩ s) :
    Place.after ⟨some q, stack⟩ (s.take (stringBody q 0 s).length) = ⟨none, stack⟩ ∧
      isSolid ⟨some q, stack⟩ (s.take (stringBody q 0 s).length) = true := by
  induction s with
  | nil => exact absurd h.balanced (by simp [isBalanced, Place.start])
  | cons c s ih =>
    have hsplit : Place.splits ⟨some q, stack⟩ c = false := by simp [Place.splits, Place.start]
    by_cases hq : c = q
    · subst hq
      simp [stringBody, Extent.stop, Place.next, isSolid, hsplit]
    · have hnewline : isNewline c = false := by simpa [Place.allows] using h.allowed
      have hback : (c == '\\') = false := by simpa using (List.ne_of_not_mem_cons h.plain).symm
      have hnext : Place.next ⟨some q, stack⟩ c = ⟨some q, stack⟩ := by simp [Place.next, hq]
      have hrest := h.of_cons
      rw [hnext] at hrest
      obtain ⟨hafter, hsolid⟩ := ih hrest
      simp [stringBody, hq, hnewline, hback, Extent.cons, hnext, isSolid, hsplit, hafter, hsolid]

theorem drop_spanLength (p : Char → Bool) (s : List Char) :
    s.drop (spanLength p s) = s.dropWhile p := by
  have hdrop : (s.takeWhile p ++ s.dropWhile p).drop (s.takeWhile p).length = s.dropWhile p :=
    List.drop_left
  rwa [List.takeWhile_append_dropWhile] at hdrop

theorem not_isQuote_of_urlAddress {x : Token × Nat} (h : urlAddress s = some x) :
    (s.dropWhile isSpace).head?.any isQuote = false := by
  rw [← drop_spanLength]
  cases hdrop : s.drop (spanLength isSpace s) with
  | nil => rfl
  | cons c r =>
    rw [urlAddress, hdrop] at h
    cases hquote : isQuote c with
    | false => simpa using hquote
    | true => simp_all [isQuote]

theorem beginsBareUrl_append (hu : sameWord u ['u', 'r', 'l'] = true)
    (hs : (s.dropWhile isSpace).head?.any isQuote = false) :
    beginsBareUrl (u ++ '(' :: s) = true := by
  have hlower := sameWord_iff.mp hu
  have hlength : (u ++ ['(']).length = 4 := by
    simpa [lower] using congrArg List.length hlower
  have hword : sameWord (u ++ ['(']) ['u', 'r', 'l', '('] = true := by
    rw [sameWord_iff, lower_append, hlower]
    rfl
  rw [← List.singleton_append, ← List.append_assoc, beginsBareUrl, ← hlength, List.take_left,
    List.drop_left, hword, hs]
  rfl

/-- An address is read only where the reader sees one. -/
theorem beginsBareUrl_of_nameLike (hv : '\\' ∉ v) (h : isAddress (nameLike v).1 = true) :
    beginsBareUrl v = true := by
  cases reading v with
  | word _ heq | call _ _ heq =>
    rw [heq] at h
    contradiction
  | address hdrop hword haddress =>
    have hsplit := List.take_append_drop (name 0 v).length v
    rw [hdrop, take_name_length hv] at hsplit
    rw [name_eq hv] at hword
    have hletters := isLetter_of_sameWord (by decide) hword
    rw [map_clean_eq fun hm => absurd (hletters _ hm) (by decide)] at hword
    rw [← hsplit]
    exact beginsBareUrl_append hword (not_isQuote_of_urlAddress haddress)

theorem not_isAddress_scan (h : Legible ⟨none, stack⟩ (c :: s)) :
    isAddress (scan c s).1 = false := by
  have hquoted := h.quoted
  rw [hasBareUrl, Bool.or_eq_false_iff] at hquoted
  rw [← Bool.not_eq_true]
  intro haddress
  obtain ⟨hscan, -⟩ := nameLike_of_scan h.plain (isNamed_of_isAddress haddress)
  rw [hscan] at haddress
  rw [beginsBareUrl_of_nameLike h.plain haddress] at hquoted
  exact absurd hquoted.1 (by simp)

theorem isInert_of_isWordChar (hc : isWordChar c = true) : isInert c = true :=
  isInert_of hc (by decide)

theorem isSolid_of_isInert (hne : stack ≠ []) (hw : ∀ c ∈ w, isInert c = true) :
    isSolid ⟨none, stack⟩ w = true := by
  induction w with
  | nil => rfl
  | cons c w ih =>
    obtain ⟨hc, hw⟩ := List.forall_mem_cons.mp hw
    rw [isSolid, next_of_isInert hc, ih hw]
    simp [Place.splits, Place.start, hne]

/-- How the reader sees a token that begins at a place outside all strings: the brackets behind it are
those that the token leaves open, and it is split just if it is whitespace outside all brackets. -/
structure Sees (stack : List Bracket) (t : Token) (w : List Char) : Prop where
  after : Place.after ⟨none, stack⟩ w = ⟨none, nest stack t⟩
  solid : (stack = [] → t ≠ .whitespace) → isSolid ⟨none, stack⟩ w = true

theorem Sees.of_isInert {t : Token} (hw : ∀ c ∈ w, isInert c = true ∧ isSpace c = false)
    (ht : nest stack t = stack) : Sees stack t w := by
  refine ⟨?_, fun _ => isSolid_of_not_isSpace fun c hc => (hw c hc).2⟩
  rw [ht]
  exact after_of_isInert fun c hc => (hw c hc).1

theorem Sees.of_isWordChar {t : Token} (hw : ∀ c ∈ w, isWordChar c = true)
    (ht : nest stack t = stack) : Sees stack t w :=
  .of_isInert (fun c hc => ⟨isInert_of_isWordChar (hw c hc), not_isSpace_of_isWordChar (hw c hc)⟩) ht

theorem Sees.of_quote {t : Token} (hc : c = '"' ∨ c = '\'') (h : Legible ⟨none, stack⟩ (c :: s))
    (ht : nest stack t = stack) : Sees stack t (c :: s.take (scan c s).2) := by
  have hnext : Place.next ⟨none, stack⟩ c = ⟨some c, stack⟩ := by
    obtain rfl | rfl := hc <;> rfl
  have hsplit : Place.splits ⟨none, stack⟩ c = false := by
    obtain rfl | rfl := hc <;> simp [Place.splits, isSpace, isNewline]
  have hrest := h.of_cons
  rw [hnext] at hrest
  obtain ⟨hafter, hsolid⟩ := after_stringBody hrest
  rw [scan_quote hc]
  refine ⟨?_, fun _ => ?_⟩
  · rw [Place.after_cons, hnext, hafter, ht]
  · rw [isSolid, hsplit, hnext, hsolid]
    rfl

theorem Sees.of_function {name : List Char} (hv : ∀ c ∈ v, isWordChar c = true) :
    Sees stack (.function name) (v ++ ['(']) := by
  refine ⟨?_, fun _ => isSolid_of_not_isSpace (List.forall_mem_append.mpr
    ⟨fun c hc => not_isSpace_of_isWordChar (hv c hc), List.forall_mem_singleton.mpr (by decide)⟩)⟩
  rw [Place.after_append, after_of_isInert fun c hc => isInert_of_isWordChar (hv c hc)]
  rfl

theorem sees_scan (h : Legible ⟨none, stack⟩ (c :: s)) :
    Sees stack (scan c s).1 (c :: s.take (scan c s).2) := by
  have hspelled := scan_spelled h.plain
  have haddress := not_isAddress_scan h
  have hfront : c :: s.take (scan c s).2 <+: c :: s :=
    List.cons_prefix_cons.mpr ⟨rfl, List.take_prefix _ s⟩
  generalize hw : c :: s.take (scan c s).2 = w at hspelled hfront ⊢
  generalize (scan c s).1 = t at hspelled haddress ⊢
  cases t with
  | whitespace =>
    have hinert : ∀ d ∈ w, isInert d = true := fun d hd => isInert_of (hspelled d hd) (by decide)
    refine ⟨after_of_isInert hinert, fun hstack => isSolid_of_isInert (fun hnil => ?_) hinert⟩
    exact absurd rfl (hstack hnil)
  | ident name =>
    exact .of_isWordChar (fun d hd => isWordChar_of_isNameChar (hspelled.1 d hd)) rfl
  | atKeyword | hash | idHash | number | percentage | dimension =>
    exact .of_isWordChar hspelled rfl
  | function name =>
    obtain ⟨v, rfl, hv, -⟩ := hspelled
    exact .of_function fun d hd => isWordChar_of_isNameChar (hv d hd)
  | comment =>
    exact absurd (hspelled.trans hfront).isInfix h.uncommented
  | quoted u | badQuoted u =>
    obtain ⟨mark, body, rfl, hmark⟩ := hspelled
    obtain ⟨rfl, hbody⟩ := List.cons.inj hw
    rw [← hbody]
    exact .of_quote hmark h rfl
  | url | badUrl => contradiction
  | delim d =>
    obtain ⟨rfl, hd⟩ := hspelled
    refine .of_isInert (fun e he => ?_) rfl
    rw [List.mem_singleton.mp he]
    exact ⟨isInert_of hd (by decide), by simpa [isDelim] using (Bool.and_eq_true_iff.mp hd).1⟩
  | opening b =>
    cases b <;>
    · cases hspelled
      exact ⟨rfl, fun _ => isSolid_of_not_isSpace (by simp [isSpace, isNewline])⟩
  | closing b =>
    have hallowed := h.allowed
    cases b <;>
    · cases hspelled
      obtain ⟨rfl, -⟩ := List.cons.inj hw
      obtain ⟨outer, rfl⟩ := List.head?_eq_some_iff.mp (beq_iff_eq.mp hallowed)
      exact ⟨rfl, fun _ => isSolid_of_not_isSpace (by simp [isSpace, isNewline])⟩
  | _ =>
    cases hspelled
    exact .of_isInert (by simp [isInert, isSpace, isNewline]) rfl

theorem filled_cons (s : List Char) (ss : List (List Char)) :
    filled (s :: ss) = filled [s] ++ filled ss := by
  cases s <;> simp [filled]

theorem modifyHead_nil_append (ss : List (List Char)) : ss.modifyHead ([] ++ ·) = ss := by
  cases ss <;> rfl

theorem cuts_space (hc : isSpace c = true) (s : List Char) :
    cuts .start (c :: s) = [] :: cuts .start s := by
  have hnext : Place.start.next c = .start := next_of_isInert (isInert_of hc (by decide)) []
  have hsplit : Place.start.splits c = true := by
    rw [Place.splits, hc]
    rfl
  rw [cuts, if_pos hsplit, hnext]

theorem filled_cuts_spaces (hw : ∀ c ∈ w, isSpace c = true) (s : List Char) :
    filled (cuts .start (w ++ s)) = filled (cuts .start s) := by
  induction w with
  | nil => rfl
  | cons c w ih =>
    obtain ⟨hc, hw⟩ := List.forall_mem_cons.mp hw
    rw [List.cons_append, cuts_space hc, filled_cons, ih hw]
    rfl

theorem filled_runs_whitespace (hc : isSpace c = true) (hw : ∀ d ∈ w, isSpace d = true)
    (x : List Char) (h : filled ((runs [] ls).map text) = filled (cuts .start s)) :
    filled (((runs [] (⟨.whitespace, c :: w⟩ :: ls)).map text).modifyHead (x ++ ·)) =
      filled ((cuts .start (c :: (w ++ s))).modifyHead (x ++ ·)) :=
  calc filled (((runs [] (⟨.whitespace, c :: w⟩ :: ls)).map text).modifyHead (x ++ ·))
      = filled [x] ++ filled ((runs [] ls).map text) := by
        rw [runs_whitespace rfl, ← filled_cons]
        simp
    _ = filled [x] ++ filled (cuts .start (w ++ s)) := by rw [h, filled_cuts_spaces hw]
    _ = filled ((cuts .start (c :: (w ++ s))).modifyHead (x ++ ·)) := by
        rw [cuts_space hc, ← filled_cons]
        simp

theorem filled_runs_token {l : Lexeme} (hl : stack = [] → isSpaceToken l.token = false)
    (hsees : Sees stack l.token l.source) (x : List Char)
    (h : filled (((runs (nest stack l.token) ls).map text).modifyHead (x ++ l.source ++ ·)) =
      filled ((cuts ⟨none, nest stack l.token⟩ s).modifyHead (x ++ l.source ++ ·))) :
    filled (((runs stack (l :: ls)).map text).modifyHead (x ++ ·)) =
      filled ((cuts ⟨none, stack⟩ (l.source ++ s)).modifyHead (x ++ ·)) := by
  have hsolid := hsees.solid fun hnil ht => by
    rw [isSpaceToken_iff.mpr ht] at hl
    exact absurd (hl hnil) (by simp)
  rw [runs_cons hl, cuts_append hsolid, hsees.after]
  obtain ⟨r, rs, hr⟩ := List.exists_cons_of_ne_nil (runs_ne_nil (nest stack l.token) ls)
  obtain ⟨u, us, hu⟩ := List.exists_cons_of_ne_nil (cuts_ne_nil ⟨none, nest stack l.token⟩ s)
  rw [hr, hu] at h ⊢
  simpa using h

/-- The runs of lexemes are the parts that the reader cuts the text into, but for empty ones. In front
of the first one may stand what belongs to it. -/
theorem filled_runs (h : Legible ⟨none, stack⟩ s) (x : List Char) :
    filled (((runs stack (lex s)).map text).modifyHead (x ++ ·)) =
      filled ((cuts ⟨none, stack⟩ s).modifyHead (x ++ ·)) := by
  induction s using lex_induction generalizing stack x with
  | nil => rfl
  | cons c s ih =>
    have hsees := sees_scan h
    have hspelled := scan_spelled h.plain
    have hsource : c :: s = (c :: s.take (scan c s).2) ++ s.drop (scan c s).2 := by
      rw [List.cons_append, List.take_append_drop]
    rw [hsource] at h
    have hrest := h.behind
    rw [hsees.after] at hrest
    rw [lex_cons, hsource]
    by_cases hspace : stack = [] ∧ (scan c s).1 = .whitespace
    · obtain ⟨rfl, ht⟩ := hspace
      rw [ht] at hspelled hrest ⊢
      obtain ⟨hc, hw⟩ := List.forall_mem_cons.mp hspelled
      have ih := ih hrest []
      rw [modifyHead_nil_append, modifyHead_nil_append] at ih
      exact filled_runs_whitespace hc hw x ih
    · have hl : stack = [] → isSpaceToken (scan c s).1 = false := by
        intro hnil
        rw [← Bool.not_eq_true, isSpaceToken_iff]
        exact fun ht => hspace ⟨hnil, ht⟩
      exact filled_runs_token (l := ⟨(scan c s).1, c :: s.take (scan c s).2⟩) hl hsees x
        (ih hrest (x ++ c :: s.take (scan c s).2))

theorem map_text_trimmedRuns (hc : ∀ l ∈ ls, l.token ≠ .comment) (hs : ∀ l ∈ ls, l.source ≠ []) :
    (trimmedRuns (runs [] ls)).map text = filled ((runs [] ls).map text) := by
  induction ls using runs_induction with
  | last ls hf =>
    rw [runs_eq_singleton hf, trimmedRuns]
    cases ls with
    | nil => rfl
    | cons l ls =>
      have hcomment : isComment l = false := by simpa [isComment] using hc l List.mem_cons_self
      have hsource := hs l List.mem_cons_self
      simp [filled, hcomment, hsource]
  | step front w back hf hn hw ih =>
    obtain ⟨hfront, hback⟩ := List.forall_mem_append.mp hc
    obtain ⟨hfronts, hbacks⟩ := List.forall_mem_append.mp hs
    have ih := ih (List.forall_mem_cons.mp hback).2 (List.forall_mem_cons.mp hbacks).2
    rw [runs_append_whitespace hf hn hw, trimmedRuns_cons (runs_ne_nil [] back),
      dropTrailingComments_eq hfront, List.map_cons, filled_cons, ← ih]
    cases front with
    | nil => rfl
    | cons l front =>
      have hsource := hfronts l List.mem_cons_self
      simp [filled, hsource]

/-- The components of a value that the reader can follow are what the reader cuts it into. -/
theorem split_eq_cuts {v : String} (h : Legible .start v.toList) :
    split v = (filled (cuts .start v.toList)).map String.ofList := by
  have hruns := filled_runs h []
  rw [modifyHead_nil_append, modifyHead_nil_append] at hruns
  have hcomment := uncommented_of_not_isInfix h.uncommented
  rw [split, components, map_text_trimmedRuns hcomment fun l hl => source_ne_nil hl, hruns]
  rfl

theorem split_eq_cuts_nested :
    Legible .start "1e+2px URL( \"a) b\" )x [ (y 'z] \"w') -->]\t#f\x7b \x7d".toList ∧
      split "1e+2px URL( \"a) b\" )x [ (y 'z] \"w') -->]\t#f\x7b \x7d" =
        ["1e+2px", "URL( \"a) b\" )x", "[ (y 'z] \"w') -->]", "#f\x7b \x7d"] := by
  have h : Legible .start "1e+2px URL( \"a) b\" )x [ (y 'z] \"w') -->]\t#f\x7b \x7d".toList := by
    decide
  exact ⟨h, (split_eq_cuts h).trans (by decide)⟩

end StyleFold.Value
