import StyleFold.Proofs.Lexeme.Concat
import StyleFold.Proofs.Token.Spelling

/-! Brackets along lists of lexemes, and the lexemes that lie outside all of them. -/
namespace StyleFold.Lexeme
open Text Token

variable {p : Token → Bool} {stack : List Bracket} {l : Lexeme} {ls ms : List Lexeme}

def nestAll (stack : List Bracket) (ls : List Lexeme) : List Bracket :=
  ls.foldl (fun stack l => nest stack l.token) stack

@[simp] theorem nestAll_nil (stack : List Bracket) : nestAll stack [] = stack :=
  rfl

@[simp] theorem nestAll_cons (stack : List Bracket) (l : Lexeme) (ls : List Lexeme) :
    nestAll stack (l :: ls) = nestAll (nest stack l.token) ls :=
  rfl

@[simp] theorem nestAll_append (stack : List Bracket) (ls ms : List Lexeme) :
    nestAll stack (ls ++ ms) = nestAll (nestAll stack ls) ms :=
  List.foldl_append

theorem nestAll_eq_nil (h : ∀ l ∈ ls, l.token.opens = none) : nestAll [] ls = [] := by
  induction ls with
  | nil => rfl
  | cons l ls ih =>
    have hl : nest [] l.token = [] := by simp [nest, h l List.mem_cons_self]
    rw [nestAll_cons, hl, ih fun m hm => h m (List.mem_cons_of_mem _ hm)]

theorem opens_of_isTrivia (h : l.isTrivia = true) : l.token.opens = none := by
  obtain h | h := isTrivia_iff.mp h <;> rw [h] <;> rfl

theorem nestAll_of_isTrivia (h : ∀ l ∈ ls, l.isTrivia = true) : nestAll stack ls = stack := by
  induction ls with
  | nil => rfl
  | cons l ls ih =>
    have hl := h l List.mem_cons_self
    have hnest : nest stack l.token = stack := by
      obtain hl | hl := isTrivia_iff.mp hl <;> rw [hl] <;> rfl
    rw [nestAll_cons, hnest, ih fun m hm => h m (List.mem_cons_of_mem _ hm)]

@[simp] theorem nest_whitespace (stack : List Bracket) : nest stack .whitespace = stack :=
  rfl

theorem nest_of_opens {t : Token} {b : Bracket} (h : t.opens = some b) (stack : List Bracket) :
    nest stack t = b :: stack := by
  rw [nest.eq_def, h]

/-- Whether no lexeme outside all brackets is one that `p` accepts. -/
def isFree (p : Token → Bool) : List Bracket → List Lexeme → Bool
  | _, [] => true
  | stack, l :: ls => !(stack.isEmpty && p l.token) && isFree p (nest stack l.token) ls

theorem isFree_cons : isFree p stack (l :: ls) = true ↔
    (stack = [] → p l.token = false) ∧ isFree p (nest stack l.token) ls = true := by
  cases stack <;> simp [isFree]

theorem isFree_append : isFree p stack (ls ++ ms) = true ↔
    isFree p stack ls = true ∧ isFree p (nestAll stack ls) ms = true := by
  induction ls generalizing stack with
  | nil => simp [isFree]
  | cons l ls ih => rw [List.cons_append, isFree_cons, isFree_cons, ih, and_assoc, nestAll_cons]

theorem isFree_mono {q : Token → Bool} (hpq : ∀ l ∈ ls, q l.token = true → p l.token = true)
    (h : isFree p stack ls = true) : isFree q stack ls = true := by
  induction ls generalizing stack with
  | nil => rfl
  | cons l ls ih =>
    rw [isFree_cons] at h ⊢
    refine ⟨fun hs => ?_, ih (fun m hm => hpq m (List.mem_cons_of_mem _ hm)) h.2⟩
    have hl := h.1 hs
    rw [← Bool.not_eq_true] at hl ⊢
    exact fun hq => hl (hpq l List.mem_cons_self hq)

theorem isFree_of_forall (h : ∀ l ∈ ls, p l.token = false) : isFree p stack ls = true := by
  induction ls generalizing stack with
  | nil => rfl
  | cons l ls ih =>
    rw [isFree_cons]
    exact ⟨fun _ => h l List.mem_cons_self, ih fun m hm => h m (List.mem_cons_of_mem _ hm)⟩

theorem before_cons (h : stack = [] → p l.token = false) (ls : List Lexeme) :
    before p stack (l :: ls) = l :: before p (nest stack l.token) ls := by
  cases stack <;> simp_all [before]

theorem onward_cons (h : stack = [] → p l.token = false) (ls : List Lexeme) :
    onward p stack (l :: ls) = onward p (nest stack l.token) ls := by
  cases stack <;> simp_all [onward]

theorem before_append (h : isFree p stack ls = true) (ms : List Lexeme) :
    before p stack (ls ++ ms) = ls ++ before p (nestAll stack ls) ms := by
  induction ls generalizing stack with
  | nil => rfl
  | cons l ls ih =>
    obtain ⟨hl, hls⟩ := isFree_cons.mp h
    rw [List.cons_append, before_cons hl, ih hls, nestAll_cons, List.cons_append]

theorem onward_append (h : isFree p stack ls = true) (ms : List Lexeme) :
    onward p stack (ls ++ ms) = onward p (nestAll stack ls) ms := by
  induction ls generalizing stack with
  | nil => rfl
  | cons l ls ih =>
    obtain ⟨hl, hls⟩ := isFree_cons.mp h
    rw [List.cons_append, onward_cons hl, ih hls, nestAll_cons]

/-- Where the search stops: outside all brackets, at a lexeme that `p` accepts, or at the end. -/
theorem search_cases (p : Token → Bool) (stack : List Bracket) (ls : List Lexeme) :
    (isFree p stack ls = true ∧ before p stack ls = ls ∧ onward p stack ls = []) ∨
      ∃ front l back, ls = front ++ l :: back ∧ isFree p stack front = true ∧
        nestAll stack front = [] ∧ p l.token = true ∧ before p stack ls = front ∧
        onward p stack ls = l :: back := by
  induction ls generalizing stack with
  | nil => exact .inl ⟨rfl, rfl, rfl⟩
  | cons l ls ih =>
    by_cases hl : stack = [] → p l.token = false
    · rw [before_cons hl, onward_cons hl]
      obtain ⟨hf, hb, ho⟩ | ⟨front, m, back, rfl, hf, hn, hm, hb, ho⟩ := ih (nest stack l.token)
      · exact .inl ⟨isFree_cons.mpr ⟨hl, hf⟩, by rw [hb], ho⟩
      · exact .inr ⟨l :: front, m, back, rfl, isFree_cons.mpr ⟨hl, hf⟩, hn, hm, by rw [hb], ho⟩
    · obtain ⟨rfl, hp⟩ : stack = [] ∧ p l.token = true := by simpa using hl
      exact .inr ⟨[], l, ls, rfl, rfl, rfl, hp, by simp [before, hp], by simp [onward, hp]⟩

theorem exists_lead (h : afterTrivia ls = ms) :
    ∃ lead, ls = lead ++ ms ∧ ∀ l ∈ lead, l.isTrivia = true :=
  ⟨leadingTrivia ls, by rw [← h]; exact List.takeWhile_append_dropWhile.symm,
    fun _ => List.mem_takeWhile_imp⟩

theorem source_within {s : List Char} (h : l ∈ lex s) : l.source <:+: s := by
  obtain ⟨a, b, hab⟩ := List.append_of_mem h
  exact ⟨text a, text b, by rw [← text_lex s, hab, text_append, text_cons, List.append_assoc]⟩

theorem spelled_of_mem {s : List Char} (hs : '\\' ∉ s) (h : l ∈ lex s) :
    Spelled l.token l.source := by
  obtain ⟨c, r, hr, rfl⟩ := exists_scan_of_mem h
  exact scan_spelled fun hm => hs (hr.subset hm)

theorem eq_of_spelling {t : Token} {v w : List Char} (h : Spelled t w)
    (ht : t.spelling? = some v) : w = v := by
  cases t
  case opening b | closing b => cases b <;> simp_all [Spelled, spelling?]
  all_goals simp_all [Spelled, spelling?]

end StyleFold.Lexeme
