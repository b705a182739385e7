import StyleFold.Proofs.Lexeme.Identifier
import StyleFold.Proofs.Pattern.Style
import StyleFold.Proofs.Value.Spaced
import StyleFold.Value.Kind

/-!
Values that hold a single token. A word is an identifier, which is no length, and no color has the
spelling of a word that is not one of the color words.
-/
namespace StyleFold.Value
open Text Lexeme Token Keyword Reader.Strict
open Pattern (isWordOf_iff)

variable {p : Token → Bool} {stack : List Bracket} {ls : List Lexeme} {t : Token} {v x : List Char}

theorem exists_block (p : Token → Bool) (stack : List Bracket) (ls : List Lexeme) :
    ∃ block, ls = block ++ afterBlock stack ls ∧ isFree p stack block = true := by
  induction ls generalizing stack with
  | nil => exact ⟨[], by simp [afterBlock], rfl⟩
  | cons l ls ih =>
    cases stack with
    | nil => exact ⟨[], by simp [afterBlock], rfl⟩
    | cons b stack =>
      obtain ⟨block, hblock, hfree⟩ := ih (nest (b :: stack) l.token)
      exact ⟨l :: block, congrArg (l :: ·) hblock, isFree_cons.mpr ⟨nofun, hfree⟩⟩

/-- Around the single token and the block that it opens there is nothing but trivia. -/
theorem exists_of_sole (p : Token → Bool) (h : sole? v = some t) : ∃ lead l block tail,
    lex v = lead ++ (l :: block ++ tail) ∧ (∀ m ∈ lead, m.isTrivia = true) ∧ l.isTrivia = false ∧
      isFree p (nest [] l.token) block = true ∧ ∀ m ∈ tail, m.isTrivia = true := by
  rw [sole?] at h
  split at h
  · contradiction
  rename_i l ls hafter
  split at h
  case isFalse => contradiction
  rename_i hall
  obtain ⟨lead, hlead, hleads⟩ := exists_lead hafter
  obtain ⟨block, hblock, hfree⟩ := exists_block p (nest [] l.token) ls
  refine ⟨lead, l, block, _, ?_, hleads, ?_, hfree, List.all_eq_true.mp hall⟩
  · rw [hlead, List.cons_append, ← hblock]
  · have hnot := List.head?_dropWhile_not Lexeme.isTrivia (lex v)
    rw [← afterTrivia, hafter] at hnot
    simpa using hnot

theorem isFree_of_sole (hplain : '\\' ∉ v) (htrim : trim v = v) (hc : Uncommented v)
    (h : sole? v = some t) : isFree isSpaceToken [] (lex v) = true := by
  have htrivia {l : Lexeme} (hl : l ∈ lex v) (ht : l.isTrivia = true) : l.token = .whitespace :=
    (isTrivia_iff.mp ht).resolve_left (hc l hl)
  obtain ⟨lead, l, block, tail, hlex, hlead, hl, hfree, htail⟩ := exists_of_sole isSpaceToken h
  obtain rfl : lead = [] := by
    cases lead with
    | nil => rfl
    | cons w lead =>
      have hw := htrivia (l := w) (by simp [hlex]) (hlead w List.mem_cons_self)
      exact absurd hw (head_ne_whitespace htrim w (by rw [hlex]; rfl))
  rw [List.nil_append] at hlex
  obtain rfl : tail = [] := by
    by_contra hne
    have hlast : tail.getLast hne ∈ (lex v).getLast? := by
      rw [hlex, List.getLast?_append_of_ne_nil _ hne]
      exact List.getLast?_eq_some_getLast hne
    exact last_ne_whitespace hplain htrim _ hlast
      (htrivia (List.mem_of_getLast? hlast) (htail _ (List.getLast_mem hne)))
  rw [hlex, List.append_nil, isFree_cons]
  refine ⟨fun _ => ?_, hfree⟩
  rw [← Bool.not_eq_true]
  intro hspace
  rw [isTrivia_iff.mpr (.inr (isSpaceToken_iff.mp hspace))] at hl
  contradiction

theorem sole_of_sameWord (hx : (!x.isEmpty && (lower x).all isLetter) = true)
    (h : sameWord v x = true) : sole? v = some (.ident v) := by
  obtain ⟨hfilled, hletters⟩ := Bool.and_eq_true_iff.mp hx
  have hall := isLetter_of_sameWord hletters h
  have hne : v ≠ [] := by
    rintro rfl
    rw [sameWord_iff, lower, List.map_nil, eq_comm, lower, List.map_eq_nil_iff] at h
    simp [h] at hfilled
  have hnull : '\x00' ∉ v := fun hm => absurd (hall _ hm) (by decide)
  rw [sole?, lex_identifier (isIdentifier_of_isLetter hne hall) hnull]
  rfl

def areLetters (ws : List String) : Bool :=
  ws.all fun x => !x.toList.isEmpty && (lower x.toList).all isLetter

theorem sole_of_isWordOf {ws : List String} (hws : areLetters ws = true)
    (h : isWordOf ws v = true) : sole? v = some (.ident v) := by
  obtain ⟨x, hx, hlower⟩ := isWordOf_iff.mp h
  exact sole_of_sameWord (List.all_eq_true.mp hws x hx) (sameWord_iff.mpr hlower)

theorem ofText?_isSome (α : Type) [Keyword α] (v : List Char) :
    (ofText? α v).isSome = isWordOf (words α) v := by
  rw [ofText?, List.isSome_find?, isWordOf, words, List.any_map]
  rfl

end StyleFold.Value
