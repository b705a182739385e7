import StyleFold.Proofs.Reader.Items

/-! The items that hold a declaration, whatever the location where they stand. -/
namespace StyleFold.Reader.Strict
open Text Lexeme Token

variable {l : Location} {ls : List Lexeme}

inductive HasPriority : List Lexeme → Bool → Prop
  | normal : HasPriority [] false
  | important {bang : Lexeme} {ls rest : List Lexeme} {word source : List Char}
      (hword : afterTrivia ls = ⟨.ident word, source⟩ :: rest)
      (hsame : sameWord word "important".toList = true) (hrest : afterTrivia rest = []) :
      HasPriority (bang :: ls) true

structure HasBody (ls : List Lexeme) (value : List Char) (important : Bool) : Prop where
  trimmed : trim (text (before isBang [] ls)) = value
  filled : value ≠ []
  priority : HasPriority (onward isBang [] ls) important

inductive Declares (name : List Char) (ls : List Lexeme) : Declaration → Prop
  | of {source value : List Char} {rest : List Lexeme} {important : Bool}
      (hcolon : afterTrivia ls = ⟨.colon, source⟩ :: rest)
      (hbody : HasBody rest value important) :
      Declares name ls
        ((Declaration.of (String.ofList name) (String.ofList value)).withPriority important)

inductive Holds (i : Item) : Option Declaration → Prop
  | nothing (h : i.lexemes.dropWhile isPadding = []) : Holds i none
  | declaration {name word : List Char} {ls : List Lexeme} {d : Declaration}
      (h : i.lexemes.dropWhile isPadding = ⟨.ident name, word⟩ :: ls) (hd : Declares name ls d) :
      Holds i (some d)

theorem opens_of_isPadding {m : Lexeme} (h : isPadding m = true) : m.token.opens = none := by
  obtain ⟨t, w⟩ := m
  cases t <;> simp_all [isPadding, Lexeme.isTrivia, Token.isTrivia, opens]

theorem priority_eq_ok {b : Bool} : priority l ls = .ok b ↔ HasPriority ls b := by
  constructor
  · intro h
    cases ls with
    | nil =>
      cases h
      exact .normal
    | cons bang ls =>
      simp only [priority] at h
      split at h
      · split at h
        · split at h
          · cases h
            exact .important ‹_› ‹_› ‹_›
          · cases h
        · cases h
      · cases h
  · intro h
    cases h with
    | normal => rfl
    | important hword hsame hrest => simp only [priority, hword, hsame, hrest, if_true]

theorem body_eq_ok {v : List Char} {b : Bool} : body l ls = .ok (v, b) ↔ HasBody ls v b := by
  simp only [body]
  cases hv : (trim (text (before isBang [] ls))).isEmpty with
  | true =>
    refine ⟨fun h => by simp at h, fun h => ?_⟩
    rw [h.trimmed, List.isEmpty_iff] at hv
    exact absurd hv h.filled
  | false =>
    have hne : trim (text (before isBang [] ls)) ≠ [] := by simpa using hv
    constructor
    · intro h
      obtain ⟨important, hp, h⟩ := bind_eq_ok.mp h
      cases h
      exact ⟨rfl, hne, priority_eq_ok.mp hp⟩
    · rintro ⟨rfl, -, hp⟩
      exact bind_eq_ok.mpr ⟨b, priority_eq_ok.mpr hp, rfl⟩

theorem declaration_eq_ok {name : List Char} {d : Declaration} :
    declaration l name ls = .ok d ↔ Declares name ls d := by
  constructor
  · intro h
    simp only [declaration] at h
    split at h
    · cases h
    · rename_i source rest hcolon
      obtain ⟨x, hb, h⟩ := bind_eq_ok.mp h
      cases h
      exact .of hcolon (body_eq_ok.mp hb)
    · cases h
  · rintro ⟨hcolon, hbody⟩
    simp only [declaration, hcolon, body_eq_ok.mpr hbody]
    rfl

theorem item_eq_ok {i : Item} {o : Option Declaration} : item l i = .ok o ↔ Holds i o := by
  constructor
  · intro h
    simp only [item] at h
    split at h
    · cases h
      exact .nothing ‹_›
    · rename_i name word ls hi
      cases hd : declaration ((l.advance (text (i.lexemes.takeWhile isPadding))).advance word)
          name ls with
      | error e => simp [hd, fail] at h
      | ok d =>
        simp only [hd] at h
        cases h
        exact .declaration hi (declaration_eq_ok.mp hd)
    · cases h
    · cases h
  · intro h
    cases h with
    | nothing h => simp only [item, h]
    | declaration h hd => simp only [item, h, declaration_eq_ok.mpr hd]

theorem collect_cons_eq_ok {i : Item} {is : List Item} {ds : List Declaration} :
    collect l (i :: is) = .ok ds ↔
      ∃ o rest, Holds i o ∧ collect (l.advance i.source) is = .ok rest ∧ ds = o.toList ++ rest := by
  constructor
  · intro h
    obtain ⟨o, hi, h⟩ := bind_eq_ok.mp h
    obtain ⟨rest, hrest, h⟩ := bind_eq_ok.mp h
    cases h
    exact ⟨o, rest, item_eq_ok.mp hi, hrest, rfl⟩
  · rintro ⟨o, rest, hi, hrest, rfl⟩
    exact bind_eq_ok.mpr
      ⟨o, item_eq_ok.mpr hi, bind_eq_ok.mpr ⟨rest, hrest, rfl⟩⟩

end StyleFold.Reader.Strict
