import StyleFold.Proofs.Value.Components

/-!
What a value holds besides its components. Nothing is lost and nothing is invented: a text is made up
of its components in their order with gaps of whitespace and comments around them.
-/
namespace StyleFold.Token
open Text

theorem comment_cases (s : List Char) :
    (∃ b, ¬['*', '/'] <:+: b ++ ['*'] ∧ s.take (commentLength s) = b ++ ['*', '/']) ∨
      ¬['*', '/'] <:+: s ∧ commentLength s = s.length := by
  fun_induction commentLength s with
  | case1 => exact .inr ⟨by decide, rfl⟩
  | case2 s => exact .inl ⟨[], by decide, rfl⟩
  | case3 c s hc ih =>
    cases ih with
    | inl hclosed =>
      obtain ⟨b, hb, htake⟩ := hclosed
      refine .inl ⟨c :: b, ?_, by rw [List.take_succ_cons, htake]; rfl⟩
      intro hm
      rw [List.cons_append, List.infix_cons_iff] at hm
      apply hb
      refine hm.resolve_left fun hfront => ?_
      -- The mark would have to begin at `c`.
      obtain ⟨rfl, hslash⟩ := List.cons_prefix_cons.mp hfront
      cases b with
      | nil => simp at hslash
      | cons d b =>
        obtain ⟨rfl, -⟩ := List.cons_prefix_cons.mp hslash
        have hs := List.take_append_drop (commentLength s) s
        rw [htake] at hs
        exact hc _ rfl hs.symm
    | inr hopen =>
      refine .inr ⟨?_, by rw [hopen.2, List.length_cons]⟩
      intro hm
      obtain hfront | hm := List.infix_cons_iff.mp hm
      · obtain ⟨rfl, hslash⟩ := List.cons_prefix_cons.mp hfront
        obtain ⟨r, rfl⟩ := hslash
        exact hc r rfl rfl
      · exact hopen.1 hm

end StyleFold.Token

namespace StyleFold.Value
open Text Lexeme Token

variable {g h t v : List Char} {l : Lexeme} {front back ls : List Lexeme}
  {ps : List (List Char × List Char)}

/-- Whitespace and comments, each of which ends with the first mark that closes it. -/
inductive Gap : List Char → Prop
  | nil : Gap []
  | space {c : Char} {s : List Char} (hc : isSpace c = true) (hs : Gap s) : Gap (c :: s)
  | comment {b s : List Char} (hb : ¬['*', '/'] <:+: b ++ ['*']) (hs : Gap s) :
      Gap ('/' :: '*' :: b ++ '*' :: '/' :: s)

/-- A gap at the end of a text, where a comment may stand that nothing closes. -/
inductive LastGap : List Char → Prop
  | closed {s : List Char} (hs : Gap s) : LastGap s
  | running {b s : List Char} (hs : Gap s) (hb : ¬['*', '/'] <:+: b) :
      LastGap (s ++ '/' :: '*' :: b)

inductive Separates : List Char → Prop
  | mk {c : Char} {a b : List Char} (ha : Gap a) (hc : isSpace c = true) (hb : Gap b) :
      Separates (a ++ c :: b)

/-- A gap and behind it pieces, each with the gap that follows it. Pieces are not empty, and whitespace
stands between any two of them. -/
inductive Alternate : List Char → List (List Char × List Char) → Prop
  | last {g : List Char} (hg : LastGap g) : Alternate g []
  | piece {g h t : List Char} {ps : List (List Char × List Char)} (hg : Gap g) (ht : t ≠ [])
      (hh : ps = [] ∨ Separates h) (hps : Alternate h ps) : Alternate g ((t, h) :: ps)

def joined (g : List Char) (ps : List (List Char × List Char)) : List Char :=
  g ++ ps.flatMap fun p => p.1 ++ p.2

theorem Gap.append (hg : Gap g) (hh : Gap h) : Gap (g ++ h) := by
  induction hg with
  | nil => exact hh
  | space hc hs ih => exact .space hc ih
  | comment hb hs ih =>
    rw [List.append_assoc]
    exact .comment hb ih

theorem Gap.of_spaces (hg : ∀ c ∈ g, isSpace c = true) : Gap g := by
  induction g with
  | nil => exact .nil
  | cons c g ih =>
    obtain ⟨hc, hg⟩ := List.forall_mem_cons.mp hg
    exact .space hc (ih hg)

theorem LastGap.pad (hg : Gap g) (hh : LastGap h) : LastGap (g ++ h) := by
  cases hh with
  | closed hs => exact .closed (hg.append hs)
  | running hs hb =>
    rw [← List.append_assoc]
    exact .running (hg.append hs) hb

theorem Alternate.pad (hg : Gap g) (hh : Alternate h ps) : Alternate (g ++ h) ps := by
  cases hh with
  | last hh => exact .last (hh.pad hg)
  | piece hh ht hs hps => exact .piece (hg.append hh) ht hs hps

theorem Alternate.gap (hne : ps ≠ []) (hg : Alternate g ps) : Gap g := by
  cases hg with
  | last hg => contradiction
  | piece hg ht hs hps => exact hg

theorem isSpace_of_mem (hl : l ∈ lex v) (ht : l.token = .whitespace) :
    ∀ c ∈ l.source, isSpace c = true := by
  obtain ⟨d, u, hsource, hspace⟩ := head_of_mem hl
  have hd := hspace.mp ht
  obtain ⟨c, r, -, rfl⟩ := exists_scan_of_mem hl
  obtain ⟨rfl, -⟩ := List.cons.inj hsource
  rw [scan_space hd]
  exact List.forall_mem_cons.mpr ⟨hd, fun e he => Numeral.mem_take_takeWhile he⟩

theorem lastGap_of_comment (hv : lex v = front ++ l :: back) (ht : l.token = .comment) :
    LastGap l.source ∧ (back ≠ [] → Gap l.source) := by
  obtain ⟨c, r, -, rfl, hback⟩ := exists_scan hv
  obtain ⟨rfl, u, rfl⟩ := comment_of_scan ht
  rw [scan_comment, Nat.add_comm] at hback ⊢
  rw [List.drop_succ_cons] at hback
  rw [List.take_succ_cons]
  cases comment_cases u with
  | inl hclosed =>
    obtain ⟨b, hb, htake⟩ := hclosed
    have hgap : Gap ('/' :: '*' :: u.take (commentLength u)) := by
      rw [htake]
      exact .comment hb .nil
    exact ⟨.closed hgap, fun _ => hgap⟩
  | inr hopen =>
    rw [hopen.2, List.drop_length] at hback
    rw [hopen.2, List.take_length]
    exact ⟨.running .nil hopen.1, fun hne => absurd hback hne⟩

theorem lastGap_of_isTrivia (hv : lex v = front ++ (ls ++ back))
    (hls : ∀ l ∈ ls, l.isTrivia = true) : LastGap (text ls) ∧ (back ≠ [] → Gap (text ls)) := by
  induction ls generalizing front with
  | nil => exact ⟨.closed .nil, fun _ => .nil⟩
  | cons l ls ih =>
    obtain ⟨hl, hls⟩ := List.forall_mem_cons.mp hls
    have hmem : l ∈ lex v := by simp [hv]
    have hrest : lex v = (front ++ [l]) ++ (ls ++ back) := by simp [hv]
    obtain ⟨hlast, hgap⟩ := ih hrest hls
    rw [text_cons]
    obtain ht | ht := isTrivia_iff.mp hl
    · obtain ⟨hend, hclosed⟩ := lastGap_of_comment hv ht
      by_cases hne : ls ++ back = []
      · obtain ⟨rfl, rfl⟩ := List.append_eq_nil_iff.mp hne
        rw [text_nil, List.append_nil]
        exact ⟨hend, fun hback => absurd rfl hback⟩
      · exact ⟨hlast.pad (hclosed hne), fun hback => (hclosed hne).append (hgap hback)⟩
    · have hspaces := Gap.of_spaces (isSpace_of_mem hmem ht)
      exact ⟨hlast.pad hspaces, fun hback => hspaces.append (hgap hback)⟩

theorem gap_of_comments (hv : lex v = front ++ (ls ++ back)) (hback : back ≠ [])
    (hls : ∀ l ∈ ls, l.token = .comment) : Gap (text ls) :=
  (lastGap_of_isTrivia hv fun l hl => isTrivia_iff.mpr (.inl (hls l hl))).2 hback

theorem separates_of_whitespace (hl : l ∈ lex v) (ht : l.token = .whitespace) (hg : Gap g)
    (hh : Gap h) : Separates (g ++ (l.source ++ h)) := by
  have hspaces := isSpace_of_mem hl ht
  obtain ⟨c, s, hsource⟩ := List.exists_cons_of_ne_nil (source_ne_nil hl)
  rw [hsource] at hspaces ⊢
  obtain ⟨hc, hs⟩ := List.forall_mem_cons.mp hspaces
  exact .mk hg hc ((Gap.of_spaces hs).append hh)

theorem exists_alternate_last (hv : lex v = front ++ ls) (hf : isFree isSpaceToken [] ls = true) :
    ∃ g ps, text ls = joined g ps ∧
      (trimmedRuns (runs [] ls)).map text = ps.map Prod.fst ∧ Alternate g ps := by
  rw [runs_eq_singleton hf, trimmedRuns]
  by_cases hall : ls.all isComment = true
  · have htrivia (l) (hl : l ∈ ls) : l.isTrivia = true :=
      isTrivia_iff.mpr (.inl (by simpa [isComment] using List.all_eq_true.mp hall l hl))
    have hend : lex v = front ++ (ls ++ []) := by rwa [List.append_nil]
    obtain ⟨hlast, -⟩ := lastGap_of_isTrivia hend htrivia
    exact ⟨text ls, [], by simp [joined], by rw [if_pos hall]; rfl, .last hlast⟩
  · have hne : text ls ≠ [] := fun he => by
      rw [eq_nil_of_text (s := v) (fun l hl => by simp [hv, hl]) he] at hall
      exact hall rfl
    exact ⟨[], [(text ls, [])], by simp [joined], by rw [if_neg hall]; rfl,
      .piece .nil hne (.inl rfl) (.last (.closed .nil))⟩

theorem exists_alternate (hv : lex v = front ++ ls) : ∃ g ps, text ls = joined g ps ∧
    (trimmedRuns (runs [] ls)).map text = ps.map Prod.fst ∧ Alternate g ps := by
  induction ls using runs_induction generalizing front with
  | last ls hf => exact exists_alternate_last hv hf
  | step q w back hf hn hw ih =>
    have hspace := isSpaceToken_iff.mp hw
    have hmem : w ∈ lex v := by simp [hv]
    have hbehind : lex v = (front ++ (q ++ [w])) ++ back := by simp [hv]
    obtain ⟨g, ps, htext, hps, halternate⟩ := ih hbehind
    obtain ⟨cs, hq, hcs⟩ := exists_comments q
    have hcut : lex v = (front ++ dropTrailingComments q) ++ (cs ++ w :: back) := by
      rw [hv, List.append_assoc, ← List.append_assoc _ cs, ← hq]
    have hcomments := gap_of_comments hcut (List.cons_ne_nil w back) hcs
    have hpad : Alternate (text cs ++ (w.source ++ g)) ps :=
      (halternate.pad (.of_spaces (isSpace_of_mem hmem hspace))).pad hcomments
    have hrest : text (q ++ w :: back) =
        text (dropTrailingComments q) ++ joined (text cs ++ (w.source ++ g)) ps := by
      conv_lhs => rw [hq]
      simp [joined, text_append, htext]
    rw [runs_append_whitespace hf hn hw, trimmedRuns_cons (runs_ne_nil [] back)]
    split
    · rename_i hnil
      exact ⟨text cs ++ (w.source ++ g), ps, by rw [hrest, hnil]; rfl, hps, hpad⟩
    · rename_i hne
      have hfilled : text (dropTrailingComments q) ≠ [] :=
        mt (eq_nil_of_text (s := v) fun l hl => by simp [hcut, hl]) hne
      refine ⟨[], (text (dropTrailingComments q), text cs ++ (w.source ++ g)) :: ps,
        by rw [hrest]; simp [joined], by rw [List.map_cons, List.map_cons, hps],
        .piece .nil hfilled ?_ hpad⟩
      by_cases hnil : ps = []
      · exact .inl hnil
      · exact .inr (separates_of_whitespace hmem hspace hcomments (halternate.gap hnil))

/-- Every value is made up of its components, none of them empty, with gaps in front of them, between
them and behind them. -/
theorem exists_gaps (v : String) : ∃ g ps, v.toList = joined g ps ∧
    (split v).map String.toList = ps.map Prod.fst ∧ Alternate g ps := by
  obtain ⟨g, ps, htext, hps, h⟩ := exists_alternate (List.nil_append (lex v.toList)).symm
  rw [text_lex] at htext
  refine ⟨g, ps, htext, ?_, h⟩
  rw [split, components, hps, List.map_map]
  simp

end StyleFold.Value
