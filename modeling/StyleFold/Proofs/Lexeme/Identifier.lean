import StyleFold.Proofs.Lexeme.Nesting
import StyleFold.Proofs.Text.Letters
import StyleFold.Proofs.Token.Cut

/-! How identifiers are spelled: every identifier is a single token, and no other text is read as one. -/
namespace StyleFold.Lexeme
open Text Token

variable {c : Char} {s t v name : List Char} {l : Lexeme}

/-- A letter, an underscore or a character beyond ASCII, or a hyphen with one of these or another
hyphen behind it, and then any of them, digits and hyphens. -/
def isIdentifier : List Char → Bool
  | '-' :: c :: s => (isNameStart c || c == '-') && s.all isNameChar
  | c :: s => isNameStart c && s.all isNameChar
  | [] => false

theorem isIdentifier_hyphen : isIdentifier ('-' :: c :: s) = true ↔
    (isNameStart c = true ∨ c = '-') ∧ ∀ d ∈ s, isNameChar d = true := by
  simp [isIdentifier]

theorem isIdentifier_cons (hc : c ≠ '-') : isIdentifier (c :: s) = true ↔
    isNameStart c = true ∧ ∀ d ∈ s, isNameChar d = true := by
  rw [isIdentifier.eq_def]
  split
  · rename_i heq
    exact absurd (List.cons.inj heq).1 hc
  · rename_i heq
    obtain ⟨rfl, rfl⟩ := List.cons.inj heq
    simp
  · contradiction

theorem isIdentifier_iff :
    isIdentifier v = true ↔ startsName v = true ∧ ∀ c ∈ v, isNameChar c = true := by
  cases v with
  | nil => simp [isIdentifier, startsName]
  | cons c s =>
    by_cases hc : c = '-'
    · subst hc
      have hhyphen : isNameChar '-' = true := by decide
      cases s with
      | nil => decide
      | cons d s =>
        have hback : isNameChar '\\' = false := by decide
        simp only [isIdentifier_hyphen, startsName, Bool.or_eq_true, beq_iff_eq,
          List.forall_mem_cons, hhyphen, true_and]
        constructor
        · rintro ⟨hd, hs⟩
          refine ⟨.inl hd, ?_, hs⟩
          obtain hd | rfl := hd
          · exact isNameChar_of_isNameStart hd
          · exact hhyphen
        · rintro ⟨hd, hchar, hs⟩
          refine ⟨hd.resolve_right ?_, hs⟩
          rintro rfl
          rw [hchar] at hback
          contradiction
    · rw [isIdentifier_cons hc, List.forall_mem_cons]
      by_cases hb : c = '\\'
      · subst hb
        have hstart : isNameStart '\\' = false := by decide
        have hchar : isNameChar '\\' = false := by decide
        simp [hstart, hchar]
      · rw [startsName_cons hc hb]
        exact ⟨fun h => ⟨h.1, isNameChar_of_isNameStart h.1, h.2⟩, fun h => ⟨h.1, h.2.2⟩⟩

theorem not_mem_of_isIdentifier (h : isIdentifier v = true) (hc : isNameChar c = false) : c ∉ v := by
  intro hm
  rw [(isIdentifier_iff.mp h).2 c hm] at hc
  contradiction

theorem nameLike_of_isNameChar (hv : ∀ c ∈ v, isNameChar c = true) (hnull : '\x00' ∉ v) :
    nameLike v = (.ident v, v.length) := by
  have hplain : '\\' ∉ v := fun hm => absurd (hv _ hm) (by decide)
  have hname : name 0 v = ⟨v, true, v.length⟩ := by
    rw [name_eq hplain, List.takeWhile_eq_self_iff.mpr hv]
    congr 1
    refine (List.map_congr_left fun d hd => ?_).trans (List.map_id _)
    have hd : d ≠ '\x00' := fun he => hnull (he ▸ hd)
    simp [clean, hd]
  rw [nameLike_of_stop (by simp [hname]), hname]

theorem scan_of_isIdentifier (h : isIdentifier (c :: s) = true) :
    scan c s = tailOf (nameLike (c :: s)) := by
  obtain ⟨hstart, hchar⟩ := isIdentifier_iff.mp h
  by_cases hc : c = '-'
  · subst hc
    cases s with
    | nil => simp [startsName, show isNameStart '-' = false by decide] at hstart
    | cons d s =>
      have hd : isNameStart d = true ∨ d = '-' := by
        simp only [isIdentifier, Bool.and_eq_true, Bool.or_eq_true, beq_iff_eq] at h
        exact h.1
      have hnumeral : Numeral.starts ('-' :: d :: s) = false := by
        have hdigit : isDigit d = false := by
          obtain hd | rfl := hd
          · exact not_isDigit_of_isNameStart hd
          · decide
        have hdot : d ≠ '.' := by
          rintro rfl
          exact absurd (hchar '.' (by simp)) (by decide)
        simp [Numeral.starts, Numeral.startsUnsigned, Numeral.startsFraction, hdigit, hdot]
      have hclose : ['-', '>'].isPrefixOf (d :: s) = false := by
        rw [← Bool.not_eq_true, List.isPrefixOf_iff_prefix]
        rintro ⟨r, hr⟩
        exact absurd (hchar '>' (by simp [← hr])) (by decide)
      rw [scan_hyphen, if_neg (by rw [hnumeral]; simp), if_neg (by rw [hclose]; simp),
        if_pos hstart]
  · have hb : c ≠ '\\' := by
      rintro rfl
      exact absurd (hchar '\\' List.mem_cons_self) (by decide)
    rw [startsName_cons hc hb] at hstart
    exact scan_nameStart hstart s

theorem lex_identifier (h : isIdentifier v = true) (hnull : '\x00' ∉ v) :
    lex v = [⟨.ident v, v⟩] := by
  cases v with
  | nil => contradiction
  | cons c s =>
    rw [lex_cons, scan_of_isIdentifier h,
      nameLike_of_isNameChar (isIdentifier_iff.mp h).2 hnull]
    simp [tailOf, lex, lexFrom]

/-- An identifier is a single token in front of a text that stands apart from it. -/
theorem lex_identifier_append (h : isIdentifier v = true) (hnull : '\x00' ∉ v)
    (ht : startsApart t = true) : lex (v ++ t) = ⟨.ident v, v⟩ :: lex t := by
  have hend : ∀ l ∈ lex v, l.isEnded = true := by
    simp [lex_identifier h hnull, Lexeme.isEnded, Token.isEnded]
  have hlast : ∀ d ∈ v.getLast?, isSpace d = false := fun d hd =>
    not_isSpace_of_isNameChar ((isIdentifier_iff.mp h).2 d (List.mem_of_getLast? hd))
  rw [lex_append (not_mem_of_isIdentifier h (by decide)) hend (.of_last ht hlast),
    lex_identifier h hnull, List.singleton_append]

theorem isLetter_of_sameWord {x : List Char} (hx : (lower x).all isLetter = true)
    (h : sameWord v x = true) : ∀ c ∈ v, isLetter c = true := by
  intro c hc
  obtain hletter | hlower := isLetter_or_toLower_eq c
  · exact hletter
  · have hmem : c.toLower ∈ lower v := List.mem_map_of_mem hc
    rw [hlower, sameWord_iff.mp h] at hmem
    exact List.all_eq_true.mp hx c hmem

theorem isIdentifier_of_isLetter (hne : v ≠ []) (h : ∀ c ∈ v, isLetter c = true) :
    isIdentifier v = true := by
  have hstart (c) (hc : c ∈ v) : isNameStart c = true := by simp [isNameStart, h c hc]
  cases v with
  | nil => contradiction
  | cons c s =>
    have hc : c ≠ '-' := by
      rintro rfl
      exact absurd (h '-' List.mem_cons_self) (by decide)
    exact (isIdentifier_cons hc).mpr ⟨hstart c List.mem_cons_self, fun d hd =>
      isNameChar_of_isNameStart (hstart d (List.mem_cons_of_mem _ hd))⟩

def isNamed : Token → Bool
  | .ident _ | .function _ | .url _ | .badUrl _ => true
  | _ => false

theorem isNamed_of_isAddress {t : Token} (h : isAddress t = true) : isNamed t = true := by
  cases t <;> first | rfl | contradiction

def NotNamed (x : Token × Nat) : Prop :=
  isNamed x.1 = false

theorem NotNamed.ite {p : Prop} [Decidable p] {x y : Token × Nat} (hx : NotNamed x)
    (hy : NotNamed y) : NotNamed (if p then x else y) := by
  split
  · exact hx
  · exact hy

theorem NotNamed.numeric (s : List Char) : NotNamed (tailOf (numeric s)) := by
  simp only [NotNamed, tailOf, Token.numeric]
  split
  · rfl
  · split <;> rfl

theorem NotNamed.matchOperator {t : Token} (ht : isNamed t = false) (c : Char) (s : List Char) :
    NotNamed (matchOperator c t s) := by
  rw [matchOperator.eq_def]
  split
  · exact ht
  · rfl

theorem NotNamed.scan_mark (hsp : isSpace c = false) (hd : isDigit c = false)
    (hn : isNameStart c = false) (hc : c ≠ '-') (hb : c ≠ '\\') (s : List Char) :
    NotNamed (scan c s) := by
  rw [scan.eq_def]
  simp only [hsp, hd, hn, Bool.false_eq_true, if_false]
  split
  case h_1 | h_2 =>
    simp only [NotNamed]
    split <;> rfl
  case h_3 =>
    refine .ite rfl ?_
    split
    · exact .ite rfl rfl
    · rfl
  case h_4 | h_10 => exact .ite rfl rfl
  case h_5 | h_6 => exact .ite (.numeric _) rfl
  case h_7 => exact absurd rfl hc
  case h_8 => exact absurd rfl hb
  case h_9 => split <;> rfl
  case h_11 | h_12 | h_13 | h_14 | h_15 => exact .matchOperator rfl _ s
  all_goals rfl

theorem nameLike_of_scan (hs : '\\' ∉ c :: s) (h : isNamed (scan c s).1 = true) :
    scan c s = tailOf (nameLike (c :: s)) ∧ startsName (c :: s) = true := by
  have hb : c ≠ '\\' := (List.ne_of_not_mem_cons hs).symm
  have hnot {x : Token × Nat} (hx : NotNamed x) (h : isNamed x.1 = true) : False := by
    rw [NotNamed, h] at hx
    contradiction
  by_cases hstart : isNameStart c = true
  · have hc : c ≠ '-' := by
      rintro rfl
      exact absurd hstart (by decide)
    exact ⟨scan_nameStart hstart s, by rw [startsName_cons hc hb, hstart]⟩
  by_cases hc : c = '-'
  · subst hc
    rw [scan_hyphen] at h ⊢
    split_ifs at h ⊢ with hnumeral hclose hname
    · exact (hnot (.numeric _) h).elim
    · contradiction
    · exact ⟨rfl, hname⟩
    · contradiction
  by_cases hsp : isSpace c = true
  · rw [scan_space hsp] at h
    contradiction
  by_cases hd : isDigit c = true
  · rw [scan_digit hd] at h
    exact (hnot (.numeric _) h).elim
  · exact (hnot (.scan_mark (by simpa using hsp) (by simpa using hd) (by simpa using hstart) hc hb s)
      h).elim

theorem isIdentifier_of_mem (hs : '\\' ∉ s) (hl : l ∈ lex s) (ht : l.token = .ident name) :
    isIdentifier l.source = true := by
  have hspelled := spelled_of_mem hs hl
  rw [ht] at hspelled
  obtain ⟨c, r, hr, rfl⟩ := exists_scan_of_mem hl
  have hplain : '\\' ∉ c :: r := fun hm => hs (hr.subset hm)
  dsimp only at ht
  obtain ⟨hscan, hstart⟩ := nameLike_of_scan hplain (by rw [ht]; rfl)
  refine isIdentifier_iff.mpr ⟨?_, hspelled.1⟩
  dsimp only
  by_cases hc : c = '-'
  · subst hc
    cases r with
    | nil => exact absurd hstart (by decide)
    | cons d r =>
      -- The name goes on behind the hyphen.
      have hd : isNameStart d = true ∨ d = '-' := by
        have hback : d ≠ '\\' :=
          (List.ne_of_not_mem_cons (List.not_mem_of_not_mem_cons hplain)).symm
        simpa [startsName, hback] using hstart
      have hchar : isNameChar d = true := by
        obtain hd | rfl := hd
        · exact isNameChar_of_isNameStart hd
        · decide
      have hlength : 2 ≤ (Token.name 0 ('-' :: d :: r)).length := by
        rw [name_eq hplain, List.takeWhile_cons_of_pos (by decide),
          List.takeWhile_cons_of_pos hchar]
        simp
      obtain ⟨n, hn⟩ : ∃ n, (scan '-' (d :: r)).2 = n + 1 := by
        have := name_length_le_nameLike ('-' :: d :: r)
        rw [hscan, tailOf]
        exact ⟨(nameLike ('-' :: d :: r)).2 - 2, by dsimp only; omega⟩
      rw [hn, List.take_succ_cons]
      exact Bool.or_eq_true_iff.mpr (.inl (by simpa using hd))
  · have hb : c ≠ '\\' := (List.ne_of_not_mem_cons hplain).symm
    rw [startsName_cons hc hb] at hstart ⊢
    exact hstart

end StyleFold.Lexeme
