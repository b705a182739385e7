import StyleFold.Proofs.Lexeme.Identifier
import StyleFold.Proofs.Reader.Accepted
import StyleFold.Proofs.Text.Trim

/-! Values that keep to themselves: the text behind such a value cannot become a part of it. -/
namespace StyleFold.Reader.Strict
open Text Lexeme Token

variable {c : Char} {s t v : List Char}

def isMark (t : Token) : Bool :=
  isSemicolon t || isBang t

theorem isFree_isMark_of_both {stack : List Bracket} {ls : List Lexeme}
    (h : isFree isSemicolon stack ls = true) (h' : isFree isBang stack ls = true) :
    isFree isMark stack ls = true := by
  induction ls generalizing stack with
  | nil => rfl
  | cons l ls ih =>
    obtain ⟨hl, hls⟩ := isFree_cons.mp h
    obtain ⟨hl', hls'⟩ := isFree_cons.mp h'
    exact isFree_cons.mpr ⟨fun hs => by rw [isMark, hl hs, hl' hs, Bool.or_false], ih hls hls'⟩

/-- A value stands before the first exclamation mark outside all brackets. -/
theorem HasBody.exists_lexemes {ls : List Lexeme} {important : Bool} (h : HasBody ls v important)
    (hfree : isFree isSemicolon [] ls = true) :
    ∃ front back, ls = front ++ back ∧ trim (text front) = v ∧ isFree isMark [] front = true ∧
      (back = [] ∨ nestAll [] front = [] ∧ ∃ m rest, back = m :: rest ∧ isBang m.token = true ∧
        HasPriority back important) := by
  have htrim := h.trimmed
  have hpriority := h.priority
  obtain ⟨hf, hbefore, -⟩ | ⟨front, bang, rest, rfl, hf, hn, hbang, hbefore, honward⟩ :=
    search_cases isBang [] ls
  · rw [hbefore] at htrim
    exact ⟨ls, [], (List.append_nil ls).symm, htrim, isFree_isMark_of_both hfree hf, .inl rfl⟩
  · rw [hbefore] at htrim
    rw [honward] at hpriority
    exact ⟨front, bang :: rest, rfl, htrim, isFree_isMark_of_both (isFree_append.mp hfree).1 hf,
      .inr ⟨hn, bang, rest, rfl, hbang, hpriority⟩⟩

theorem isFree_isMark {stack : List Bracket} (hs : '\\' ∉ v) (hv : '!' ∉ v)
    (h : isFree isSemicolon stack (lex v) = true) : isFree isMark stack (lex v) = true := by
  refine isFree_mono (fun l hl ht => ?_) h
  obtain ht | ht : isSemicolon l.token = true ∨ isBang l.token = true := by
    simpa [isMark] using ht
  · exact ht
  · have hspelled := spelled_of_mem hs hl
    rw [isBang_iff.mp ht] at hspelled
    exact absurd ((source_within hl).subset (by rw [hspelled.1]; simp)) hv

/-- A trimmed text ends with no space that the text behind it could go on with. -/
theorem apart_of_trim (hv : trim v = v) (ht : startsApart t = true) : Apart v t :=
  .of_last ht fun d hd => not_isSpace_of_not_isBlank ((trim_eq_self_iff.mp hv).2 d hd)

theorem takeWhile_isSpace_of_trim (hne : v ≠ []) (hv : trim v = v) (t : List Char) :
    (v ++ t).takeWhile isSpace = [] :=
  takeWhile_append_of_head hne
    (fun d hd => not_isSpace_of_not_isBlank ((trim_eq_self_iff.mp hv).1 d hd)) t

structure Trimmed (v : List Char) : Prop where
  filled : v ≠ []
  trimmed : trim v = v
  plain : '\\' ∉ v

/-- A value without backslashes that ends all its strings, addresses and comments, closes all its
brackets and has no semicolon and no exclamation mark outside of them. -/
structure Contained (v : List Char) : Prop where
  plain : '\\' ∉ v
  ended : ∀ l ∈ lex v, l.isEnded = true
  closed : nestAll [] (lex v) = []
  unmarked : isFree isMark [] (lex v) = true

namespace Contained

theorem iff_and : Contained v ↔ '\\' ∉ v ∧ (∀ l ∈ lex v, l.isEnded = true) ∧
    nestAll [] (lex v) = [] ∧ isFree isMark [] (lex v) = true :=
  ⟨fun ⟨h₁, h₂, h₃, h₄⟩ => ⟨h₁, h₂, h₃, h₄⟩, fun ⟨h₁, h₂, h₃, h₄⟩ => ⟨h₁, h₂, h₃, h₄⟩⟩

instance (v : List Char) : Decidable (Contained v) :=
  decidable_of_iff _ iff_and.symm

theorem isFree_semicolon (h : Contained v) : isFree isSemicolon [] (lex v) = true :=
  isFree_mono (fun _ _ ht => by simp [isMark, ht]) h.unmarked

theorem isFree_bang (h : Contained v) : isFree isBang [] (lex v) = true :=
  isFree_mono (fun _ _ ht => by simp [isMark, ht]) h.unmarked

theorem lex_append_mark (h : Contained v) (hv : trim v = v) (hc : c = ' ' ∨ c = ';')
    (s : List Char) : lex (v ++ c :: s) = lex v ++ lex (c :: s) :=
  lex_append h.plain h.ended (apart_of_trim hv (by obtain rfl | rfl := hc <;> rfl))

end Contained

theorem clean_eq (h : c ≠ '\x00') : clean c = c := by
  simp [clean, h]

def isWord : List Char → Bool
  | [] => false
  | c :: s => isNameStart c && (c :: s).all fun d => isNameChar d && d != '\x00'

theorem isWord_iff : isWord v = true ↔
    (∃ c s, v = c :: s ∧ isNameStart c = true) ∧ ∀ d ∈ v, isNameChar d = true ∧ d ≠ '\x00' := by
  cases v with
  | nil => simp [isWord]
  | cons c s => simp [isWord]

theorem isIdentifier_of_isWord (h : isWord v = true) : isIdentifier v = true ∧ '\x00' ∉ v := by
  obtain ⟨⟨c, s, rfl, hc⟩, hs⟩ := isWord_iff.mp h
  have hhyphen : c ≠ '-' := by
    rintro rfl
    exact absurd hc (by decide)
  exact ⟨(isIdentifier_cons hhyphen).mpr ⟨hc, fun d hd => (hs d (List.mem_cons_of_mem _ hd)).1⟩,
    fun hm => (hs _ hm).2 rfl⟩

theorem lex_word_append (h : isWord v = true) (ht : startsApart t = true) :
    lex (v ++ t) = ⟨.ident v, v⟩ :: lex t :=
  lex_identifier_append (isIdentifier_of_isWord h).1 (isIdentifier_of_isWord h).2 ht

end StyleFold.Reader.Strict
