import StyleFold.Reader.Strict
import Mathlib

/-!
A declaration list further down in a text reads in the same way, with the locations of its errors as
many lines further down.
-/
namespace StyleFold.Text

/-- How many lines a text ends. A carriage return and the line feed behind it end one line. -/
def lineBreaks : List Char → Nat
  | [] => 0
  | '\r' :: '\n' :: s => lineBreaks s + 1
  | c :: s => if isNewline c then lineBreaks s + 1 else lineBreaks s

namespace Location

variable {s t : List Char}

def down (n : Nat) (l : Location) : Location :=
  ⟨l.line + n, l.column⟩

@[simp] theorem down_zero (l : Location) : l.down 0 = l :=
  rfl

theorem nextLine_down (n : Nat) (l : Location) : (l.down n).nextLine = l.nextLine.down n := by
  simp [down, nextLine, Nat.add_right_comm]

theorem advance_down (n : Nat) (l : Location) (s : List Char) :
    (l.down n).advance s = (l.advance s).down n := by
  induction l, s using advance.induct with
  | case1 l => rfl
  | case2 l s ih => simp only [advance, nextLine_down, ih]
  | case3 l c s hc hn ih => rw [advance, advance, if_pos hn, if_pos hn, nextLine_down, ih] <;> exact hc
  | case4 l c s hc hn ih =>
    rw [advance, advance, if_neg hn, if_neg hn, ← ih] <;> first | rfl | exact hc

theorem nextLine_line (l : Location) : l.nextLine.line = l.line + 1 :=
  rfl

theorem nextLine_eq_down (l : Location) : l.nextLine = start.down l.line := by
  simp [nextLine, start, down, Nat.add_comm]

theorem advance_line (l : Location) (s : List Char) :
    (l.advance s).line = l.line + lineBreaks s := by
  induction l, s using advance.induct with
  | case1 l => rfl
  | case2 l s ih => rw [advance, lineBreaks, ih, nextLine_line, Nat.add_right_comm, Nat.add_assoc]
  | case3 l c s hc hn ih =>
    rw [advance, lineBreaks, if_pos hn, if_pos hn, ih, nextLine_line, Nat.add_right_comm,
      Nat.add_assoc] <;> exact hc
  | case4 l c s hc hn ih =>
    rw [advance, lineBreaks, if_neg hn, if_neg hn, ih] <;> exact hc

end Location

/-- The count is kept where no carriage return is parted from its line feed. -/
theorem lineBreaks_append {s t : List Char} (h : s.getLast? = some '\r' → t.head? ≠ some '\n') :
    lineBreaks (s ++ t) = lineBreaks s + lineBreaks t := by
  have hpair {c : Char} {s : List Char} (h : (c :: s).getLast? = some '\r' → t.head? ≠ some '\n')
      (hc : ∀ r, c = '\r' → s = '\n' :: r → False) :
      (s.getLast? = some '\r' → t.head? ≠ some '\n') ∧
        ∀ r, c = '\r' → s ++ t = '\n' :: r → False := by
    cases s with
    | nil =>
      refine ⟨by simp, ?_⟩
      rintro r rfl rfl
      exact h rfl rfl
    | cons d s =>
      refine ⟨fun hl => h (by rw [List.getLast?_cons_cons, hl]), ?_⟩
      rintro r rfl hr
      obtain ⟨rfl, -⟩ := List.cons.inj hr
      exact hc s rfl rfl
  induction s using lineBreaks.induct with
  | case1 => simp [lineBreaks]
  | case2 s ih =>
    have hs : s.getLast? = some '\r' → t.head? ≠ some '\n' := fun hl => h (by
      rw [List.getLast?_cons, List.getLast?_cons, hl]
      rfl)
    simp only [List.cons_append, lineBreaks, ih hs, Nat.add_right_comm]
  | case3 c s hc hn ih =>
    obtain ⟨hs, ht⟩ := hpair h hc
    rw [List.cons_append, lineBreaks, lineBreaks, if_pos hn, if_pos hn, ih hs, Nat.add_right_comm]
    · exact hc
    · exact ht
  | case4 c s hc hn ih =>
    obtain ⟨hs, ht⟩ := hpair h hc
    rw [List.cons_append, lineBreaks, lineBreaks, if_neg hn, if_neg hn, ih hs]
    · exact hc
    · exact ht

end StyleFold.Text

namespace StyleFold.ConversionError
open Text

def down (n : Nat) : ConversionError → ConversionError
  | malformed flaw source location => malformed flaw source (location.down n)
  | e => e

end StyleFold.ConversionError

namespace StyleFold.Reader.Strict
open Text Lexeme

def Checked.down {α : Type} (n : Nat) (x : Checked α) : Checked α :=
  x.mapError fun e => (e.1, e.2.down n)

variable {α β : Type} (n : Nat) (l : Location) (ls : List Lexeme)

theorem priority_down : priority (l.down n) ls = (priority l ls).down n := by
  cases ls with
  | nil => rfl
  | cons bang ls =>
    simp only [priority]
    split
    · split
      · split
        · rfl
        · simp only [Location.advance_down]
          rfl
      · rfl
    · rfl

theorem body_down : body (l.down n) ls = (body l ls).down n := by
  simp only [body, Location.advance_down, priority_down]
  split
  · rfl
  · cases priority (l.advance (text (before isBang [] ls))) (onward isBang [] ls) <;> rfl

theorem declaration_down (name : List Char) :
    declaration (l.down n) name ls = (declaration l name ls).down n := by
  simp only [declaration, Location.advance_down, body_down]
  split
  · rfl
  · rename_i source rest heq
    cases body (l.advance (text (leadingTrivia ls) ++ source)) rest <;> rfl
  · rfl

theorem item_down (i : Item) : item (l.down n) i = (item l i).mapError (ConversionError.down n) := by
  simp only [item, Location.advance_down, declaration_down]
  split
  · rfl
  · rename_i name word ls heq
    cases declaration ((l.advance (text (i.lexemes.takeWhile isPadding))).advance word) name ls <;>
      rfl
  · rfl
  · rfl

theorem collect_down (is : List Item) :
    collect (l.down n) is = (collect l is).mapError (ConversionError.down n) := by
  induction is generalizing l with
  | nil => rfl
  | cons i is ih =>
    simp only [collect, item_down, Location.advance_down, ih]
    cases item l i with
    | error e => rfl
    | ok d => cases collect (l.advance i.source) is <;> rfl

end StyleFold.Reader.Strict
