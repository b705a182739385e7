import StyleFold.Proofs.Shorthand.Background.Parts

/-!
The keywords that are found in a text. They are all the words of their set that begin where a token
may begin and end where a token ends, from left to right: no match takes away what the next one needs,
and none hides another one.
-/
namespace StyleFold.BackgroundShorthand
open Text Pattern

variable {n : Nat} {k : Part} {c : Char} {s t u v w : List Char} {first : Bool} {ws : List String}

structure Stretch where
  before : List Char
  word : List Char
  behind : List Char

/-- A token begins behind a gap, and at the start of a text that nothing stands before. -/
def mayBegin (first : Bool) (before : List Char) : Bool :=
  match before.getLast? with
  | none => first
  | some c => isGap c

namespace Stretch

def text (σ : Stretch) : List Char :=
  σ.before ++ (σ.word ++ σ.behind)

def shift (c : Char) (σ : Stretch) : Stretch :=
  { σ with before := c :: σ.before }

/-- The stretch is a whole token, and one of the words in any letter case. -/
structure IsToken (ws : List String) (first : Bool) (σ : Stretch) : Prop where
  begins : mayBegin first σ.before = true
  spelled : Keyword.isWordOf ws σ.word = true
  ends : ∀ c ∈ σ.behind.head?, isBlank c = true ∨ c = '/'

end Stretch

open Stretch

variable {σ τ : Stretch} {σs : List Stretch}

/-- All the tokens of a text that are among the words, from left to right. -/
structure Lists (ws : List String) (first : Bool) (s : List Char) (σs : List Stretch) : Prop where
  ordered : σs.Pairwise fun σ τ => σ.before.length < τ.before.length
  mem_iff : ∀ σ, σ ∈ σs ↔ σ.text = s ∧ σ.IsToken ws first

theorem lead_iff : Lead first u ↔ mayBegin first u = true ∧ u.length ≤ 1 := by
  match u with
  | [] => simp [Lead, mayBegin]
  | [d] => simp [Lead, mayBegin]
  | _ :: _ :: _ => simp [Lead]

namespace Stretch

@[simp] theorem shift_word (c : Char) (σ : Stretch) : (σ.shift c).word = σ.word :=
  rfl

theorem IsToken.before_ne_nil (h : σ.IsToken ws false) : σ.before ≠ [] := by
  intro hnil
  have hbegins := h.begins
  rw [hnil] at hbegins
  contradiction

theorem isToken_shift (hne : σ.before ≠ []) :
    (σ.shift c).IsToken ws first ↔ σ.IsToken ws false := by
  have hbegins : mayBegin first (c :: σ.before) = mayBegin false σ.before := by
    obtain ⟨d, u, hu⟩ := List.exists_cons_of_ne_nil hne
    rw [mayBegin, mayBegin, hu, List.getLast?_cons_cons]
    rfl
  exact ⟨fun ⟨hb, hs, he⟩ => ⟨hbegins ▸ hb, hs, he⟩, fun ⟨hb, hs, he⟩ => ⟨hbegins.trans hb, hs, he⟩⟩

end Stretch

theorem Lists.cons (h : Lists ws false s σs) (head? : Option Stretch)
    (hhead : ∀ σ, head? = some σ ↔
      σ.text = c :: s ∧ σ.IsToken ws first ∧ σ.before.length ≤ 1) :
    Lists ws first (c :: s) (head?.toList ++ σs.map (Stretch.shift c)) := by
  have hbehind : ∀ σ ∈ σs, 1 ≤ σ.before.length := fun σ hσ =>
    List.length_pos_iff.mpr ((h.mem_iff σ).mp hσ).2.before_ne_nil
  constructor
  · refine List.pairwise_append.mpr ⟨?_, ?_, ?_⟩
    · cases head? <;> simp
    · exact List.pairwise_map.mpr (h.ordered.imp fun hlt => Nat.succ_lt_succ hlt)
    · intro σ hσ τ hτ
      obtain ⟨-, -, hle⟩ := (hhead σ).mp (Option.mem_toList.mp hσ)
      obtain ⟨υ, hυ, rfl⟩ := List.mem_map.mp hτ
      exact Nat.lt_succ_of_le (hle.trans (hbehind υ hυ))
  · intro σ
    rw [List.mem_append, Option.mem_toList, hhead, List.mem_map]
    constructor
    · rintro (⟨htext, htoken, -⟩ | ⟨τ, hτ, rfl⟩)
      · exact ⟨htext, htoken⟩
      · obtain ⟨rfl, htoken⟩ := (h.mem_iff τ).mp hτ
        exact ⟨rfl, (isToken_shift htoken.before_ne_nil).mpr htoken⟩
    · rintro ⟨htext, htoken⟩
      obtain ⟨before, word, behind⟩ := σ
      match before with
      | [] | [_] => exact .inl ⟨htext, htoken, by simp⟩
      | d :: e :: before =>
        obtain ⟨rfl, rfl⟩ := List.cons.inj htext
        have hne : (⟨e :: before, word, behind⟩ : Stretch).before ≠ [] := List.cons_ne_nil e before
        exact .inr ⟨⟨e :: before, word, behind⟩, (h.mem_iff _).mpr
          ⟨rfl, (isToken_shift hne).mp htoken⟩, rfl⟩

theorem wordy_of_isWordOf (h : Keyword.isWordOf k.words w = true) : ∀ c ∈ w, isWordy c = true :=
  (IsWord.keyword h).wordy

theorem gapless_of_isWordOf (h : Keyword.isWordOf k.words w = true) : ∀ c ∈ w, isGap c = false :=
  fun c hc => not_isGap_of_isWordy (wordy_of_isWordOf h c hc)

/-- A word does not reach beyond the end of a token. -/
theorem length_le_of_endsToken (h : w ++ t = v ++ u) (ht : endsToken t = true)
    (hv : ∀ c ∈ v, isWordy c = true) : v.length ≤ w.length := by
  obtain ⟨a, rfl, rfl⟩ | ⟨a, rfl, -⟩ := List.append_eq_append_iff.mp h
  · cases a with
    | nil => simp
    | cons c a =>
      rw [List.cons_append, endsToken_of_isWordy (hv c (by simp))] at ht
      contradiction
  · simp

namespace Stretch

theorem IsToken.endsToken_behind (h : σ.IsToken ws first) : endsToken σ.behind = true :=
  endsToken_iff.mpr h.ends

theorem IsToken.exists_head (h : σ.IsToken k.words first) :
    ∃ c r, σ.word = c :: r ∧ isGap c = false := by
  obtain ⟨c, r, hword, -⟩ := headClass_of_keyword h.spelled
  exact ⟨c, r, hword, gapless_of_isWordOf h.spelled c (by rw [hword]; exact List.mem_cons_self)⟩

/-- If one token begins at the start of a text, none begins behind its first character. -/
theorem IsToken.before_eq (hσ : σ.IsToken k.words first) (hτ : τ.IsToken k.words first)
    (htext : σ.text = τ.text) (hle : σ.before.length ≤ 1) (hle' : τ.before.length ≤ 1) :
    σ.before = τ.before := by
  obtain ⟨c, r, hc, hgap⟩ := hσ.exists_head
  obtain ⟨d, r', hd, hgap'⟩ := hτ.exists_head
  have hlead := lead_iff.mpr ⟨hσ.begins, hle⟩
  have hlead' := lead_iff.mpr ⟨hτ.begins, hle'⟩
  rw [text, text, hc, hd] at htext
  exact lead_unique (hlead.imp_left And.left) (hlead'.imp_left And.left) hgap hgap' htext

theorem IsToken.unique (hσ : σ.IsToken k.words first) (hτ : τ.IsToken k.words first)
    (htext : σ.text = τ.text) (hle : σ.before.length ≤ 1) (hle' : τ.before.length ≤ 1) : σ = τ := by
  have hbefore := hσ.before_eq hτ htext hle hle'
  obtain ⟨before, word, behind⟩ := σ
  obtain ⟨before', word', behind'⟩ := τ
  obtain rfl : before = before' := hbefore
  have hsplit : word ++ behind = word' ++ behind' := List.append_cancel_left htext
  have hlength : word.length = word'.length :=
    le_antisymm (length_le_of_endsToken hsplit.symm hτ.endsToken_behind (wordy_of_isWordOf hσ.spelled))
      (length_le_of_endsToken hsplit hσ.endsToken_behind (wordy_of_isWordOf hτ.spelled))
  obtain ⟨rfl, rfl⟩ := List.append_inj hsplit hlength
  rfl

end Stretch

theorem tokensFrom_of_isToken (h : σ.IsToken k.words first) (hle : σ.before.length ≤ 1)
    (hs : σ.text = c :: s) (hn : (c :: s).length ≤ n) :
    tokensFrom n (oneOf k.words) first (c :: s) =
      σ.word :: tokensFrom n (oneOf k.words) false s := by
  have hlead := lead_iff.mpr ⟨h.begins, hle⟩
  have htakes := takes_of_isWordOf h.spelled h.endsToken_behind
  rw [tokensFrom_behind (hlead.imp_left And.left) hs.symm (IsWord.keyword h.spelled).ne_nil
    (gapless_of_isWordOf h.spelled)]
  rw [← hs] at hn ⊢
  exact tokensFrom_take (firm_words k) hlead htakes h.endsToken_behind hn

/-- Where no token begins the first character is passed over, also if a word is matched that does not
end a token. -/
theorem tokensFrom_of_not_isToken
    (h : ∀ σ : Stretch, σ.text = c :: s → σ.before.length ≤ 1 → ¬σ.IsToken k.words first) :
    tokensFrom n (oneOf k.words) first (c :: s) = tokensFrom n (oneOf k.words) false s := by
  cases hmatch : match? n (atTokenStart (oneOf k.words)) first (c :: s) with
  | none => exact tokensFrom_of_none hmatch
  | some stop =>
    obtain ⟨lead, v, hs, hlead, hlang⟩ := match?_cases hmatch
    have hv := isWordOf_of_language rfl hlang
    obtain ⟨hbegins, hle⟩ := lead_iff.mp hlead
    have hends : endsToken stop.rest = false := by
      rw [← Bool.not_eq_true]
      exact fun hends => h ⟨lead, v, stop.rest⟩ hs.symm hle ⟨hbegins, hv, endsToken_iff.mp hends⟩
    have hne : v ≠ [] := (IsWord.keyword hv).ne_nil
    rw [tokensFrom_behind (hlead.imp_left And.left) hs hne (gapless_of_isWordOf hv)]
    rw [hs, ← List.append_assoc] at hmatch ⊢
    rw [tokensFrom_of_match hmatch rfl (by simp [hne]), token?, Match.rest,
      if_neg (by rw [hends]; decide)]
    rfl

/-- From the start of a text or from within one, the search finds its tokens from left to right. -/
theorem exists_lists (k : Part) (first : Bool) (hn : s.length ≤ n) :
    ∃ σs, Lists k.words first s σs ∧ tokensFrom n (oneOf k.words) first s = σs.map Stretch.word := by
  induction s generalizing first with
  | nil =>
    refine ⟨[], ⟨.nil, fun σ => ?_⟩, rfl⟩
    simp only [List.not_mem_nil, false_iff, not_and]
    intro htext htoken
    obtain ⟨c, r, hword, -⟩ := htoken.exists_head
    simp [text, hword] at htext
  | cons c s ih =>
    obtain ⟨σs, hlists, htokens⟩ := ih false (Nat.le_of_succ_le hn)
    by_cases h : ∃ σ : Stretch, σ.text = c :: s ∧ σ.IsToken k.words first ∧ σ.before.length ≤ 1
    · obtain ⟨σ, htext, htoken, hle⟩ := h
      refine ⟨_, hlists.cons (some σ) fun τ => ?_, ?_⟩
      · constructor
        · rintro ⟨⟩
          exact ⟨htext, htoken, hle⟩
        · rintro ⟨htext', htoken', hle'⟩
          exact congrArg some (htoken.unique htoken' (htext.trans htext'.symm) hle hle')
      · rw [tokensFrom_of_isToken htoken hle htext hn, htokens]
        simp
    · refine ⟨_, hlists.cons none fun τ => ?_, ?_⟩
      · simp only [reduceCtorEq, false_iff]
        exact fun hτ => h ⟨τ, hτ⟩
      · rw [tokensFrom_of_not_isToken fun σ htext hle htoken => h ⟨σ, htext, htoken, hle⟩, htokens]
        simp

theorem exists_lists_tokens (k : Part) (s : List Char) :
    ∃ σs, Lists k.words true s σs ∧ tokens (oneOf k.words) s = σs.map Stretch.word := by
  rw [tokens_eq]
  exact exists_lists k true le_rfl

/-- Of the styles of tiling, the attachments and the boxes, just those are found in a text that stand
in it as whole tokens, each of them once and in their order. -/
theorem tokens_keywords (s : List Char) :
    (∃ σs, Lists (Keyword.words RepeatStyle) true s σs ∧
      tokens (oneOf (Keyword.words RepeatStyle)) s = σs.map Stretch.word) ∧
    (∃ σs, Lists (Keyword.words Attachment) true s σs ∧
      tokens (oneOf (Keyword.words Attachment)) s = σs.map Stretch.word) ∧
    ∃ σs, Lists (Keyword.words BoxEdge) true s σs ∧
      tokens (oneOf (Keyword.words BoxEdge)) s = σs.map Stretch.word :=
  ⟨exists_lists_tokens .tiling s, exists_lists_tokens .attachment s, exists_lists_tokens .box s⟩

/-- A no-break space ends a token and begins none. -/
example : tokens (oneOf (Keyword.words RepeatStyle))
    "Repeat-X repeat-xy REPEAT/round\u00a0space no-repeat".toList =
      ["Repeat-X".toList, "REPEAT".toList, "no-repeat".toList] := by
  decide +kernel

end StyleFold.BackgroundShorthand
