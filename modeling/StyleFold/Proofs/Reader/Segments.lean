import StyleFold.Proofs.Reader.Matching
import StyleFold.Proofs.Text.Words

/-!
The segments of a text between its semicolons. The lenient reader reads every segment by itself and
finds at most one declaration in it, so that nothing in one segment has an effect on another.
-/
namespace StyleFold.Reader.Lenient
open Text Pattern

variable {n : Nat} {first : Bool} {c : Char} {s t stop rest : List Char}

/-- A name and a colon at the front of a text, with nothing but a gap between them. -/
def BeginsDeclaration (s : List Char) : Prop :=
  ∃ name gap r, s = name ++ (gap ++ ':' :: r) ∧ name ≠ [] ∧
    (∀ c ∈ name, isNameLetter c = true) ∧ ∀ c ∈ gap, isGap c = true

/-- No shorter name and no shorter gap leads to a colon where the longest ones do not. -/
theorem match?_declaration_none (h : ¬BeginsDeclaration s) :
    match? n declarationPattern first s = none := by
  rw [match?, declarationPattern_eq]
  simp only [Pattern.all, run_seq, run_group, many1]
  cases s with
  | nil => exact run_char_none (by simp)
  | cons c s =>
    by_cases hc : isNameLetter c = true
    · rw [run_char hc]
      refine run_many_none fun name u hu hname => run_many_none fun gap v hv hgap => ?_
      refine run_char_none fun d hd => ?_
      rw [beq_eq_false_iff_ne]
      intro hcolon
      obtain ⟨r, rfl⟩ : ∃ r, v = ':' :: r := by
        cases v with
        | nil => simp at hd
        | cons e r => exact ⟨r, by simp_all⟩
      have hsplit : c :: s = (c :: name) ++ (gap ++ ':' :: r) := by
        rw [hu, List.cons_append, ← hv]
      exact h ⟨c :: name, gap, r, hsplit, List.cons_ne_nil c name,
        List.forall_mem_cons.mpr ⟨hc, hname⟩, hgap⟩
    · exact run_char_none fun d hd => by cases hd; simpa using hc

theorem BeginsDeclaration.of_append (hstop : Ends stop rest)
    (h : BeginsDeclaration (s ++ (stop ++ rest))) : BeginsDeclaration s := by
  cases hstop with
  | text => simpa using h
  | semicolon =>
    obtain ⟨name, gap, r, hs, hne, hname, hgap⟩ := h
    have hfront : ';' ∉ name ++ gap := by
      intro hm
      obtain hm | hm := List.mem_append.mp hm
      · exact absurd (hname ';' hm) (by decide)
      · exact absurd (hgap ';' hm) (by decide)
    rw [List.singleton_append, ← List.append_assoc name] at hs
    obtain ⟨u, hu, hrest⟩ | ⟨u, hu, hcolon⟩ := List.append_eq_append_iff.mp hs
    · cases u with
      | nil => simp at hrest
      | cons d u =>
        obtain rfl : ';' = d := (List.cons.inj hrest).1
        exact absurd (by simp [hu]) hfront
    · cases u with
      | nil => simp at hcolon
      | cons d u =>
        obtain rfl : ':' = d := (List.cons.inj hcolon).1
        exact ⟨name, gap, u, by rw [hu, List.append_assoc], hne, hname, hgap⟩

theorem exists_value_between (s : List Char) : ∃ a m b, s = a ++ (m ++ b) ∧
    (∀ c ∈ a, isGap c = true) ∧ (∀ c ∈ b, isGap c = true) ∧
      (∀ c ∈ m.getLast?, isGap c = false) ∧ ∀ c ∈ (m ++ b).head?, isGap c = false := by
  obtain ⟨a, m, b, hs, ha, hb, hhead, hlast⟩ := exists_strip isGap s
  cases m with
  | nil =>
    have hall : ∀ c ∈ s, isGap c = true := by
      rw [hs, List.append_nil]
      exact List.forall_mem_append.mpr ⟨ha, hb⟩
    exact ⟨s, [], [], by simp, hall, by simp, by simp, by simp⟩
  | cons c m => exact ⟨a, c :: m, b, by rw [hs, List.append_assoc], ha, hb, hlast, hhead⟩

structure Stands (s name value : List Char) : Prop where
  named : name ≠ []
  letters : ∀ c ∈ name, isNameLetter c = true
  last : ∀ c ∈ value.getLast?, isGap c = false
  unended : ';' ∉ value
  inside : value ⊆ s

theorem Stands.mono {name value : List Char} (h : Stands s name value) (hst : s ⊆ t) :
    Stands t name value :=
  ⟨h.named, h.letters, h.last, h.unended, List.Subset.trans h.inside hst⟩

theorem exists_declared (h : BeginsDeclaration s) (hs : ';' ∉ s) :
    ∃ name value, Stands s name value ∧
      ∀ n first stop rest, Ends stop rest →
        declarationsFrom n first (s ++ (stop ++ rest)) =
          declared name value :: declarationsFrom n false rest := by
  obtain ⟨name, gap, r, hname, hne, hletters, hgap⟩ := h
  obtain ⟨gap', value, gap'', hvalue, hgap', hgap'', hlast, hhead⟩ := exists_value_between r
  have hsemi : ';' ∉ value := fun hm => hs (by simp [hname, hvalue, hm])
  have hinside : value ⊆ s := fun d hd => by simp [hname, hvalue, hd]
  refine ⟨name, value, ⟨hne, hletters, hlast, hsemi, hinside⟩, fun n first stop rest hstop => ?_⟩
  have hstart : ∀ d ∈ (value ++ (gap'' ++ (stop ++ rest))).head?, isGap d = false := by
    rw [← List.append_assoc]
    by_cases hempty : value ++ gap'' = []
    · rw [hempty, List.nil_append]
      exact hstop.not_isGap
    · rw [List.head?_append_of_ne_nil _ hempty]
      exact hhead
  rw [hname, hvalue]
  simp only [List.append_assoc, List.cons_append]
  exact declarationsFrom_match rfl hne hletters hgap hgap' hstart hlast hsemi hgap'' hstop

/-- A segment gives the same declaration, if any, whatever stands around it. -/
theorem exists_declaration (hs : ';' ∉ s) : ∃ o : Option Declaration,
    (∀ d ∈ o, ∃ name value, Stands s name value ∧ d = declared name value) ∧
      ∀ n first stop rest, Ends stop rest →
        declarationsFrom n first (s ++ (stop ++ rest)) =
          o.toList ++ declarationsFrom n false rest := by
  induction s with
  | nil => exact ⟨none, by simp, fun n first stop rest hstop => declarationsFrom_ends hstop⟩
  | cons c s ih =>
    by_cases h : BeginsDeclaration (c :: s)
    · obtain ⟨name, value, hstands, hread⟩ := exists_declared h hs
      refine ⟨some (declared name value), fun d hd => ?_, hread⟩
      obtain rfl := Option.some.inj hd
      exact ⟨name, value, hstands, rfl⟩
    · obtain ⟨o, hheld, ho⟩ := ih (List.not_mem_of_not_mem_cons hs)
      refine ⟨o, fun d hd => ?_, fun n first stop rest hstop => ?_⟩
      · obtain ⟨name, value, hstands, hd⟩ := hheld d hd
        exact ⟨name, value, hstands.mono (List.subset_cons_self c s), hd⟩
      have hnone : match? n declarationPattern first (c :: (s ++ (stop ++ rest))) = none :=
        match?_declaration_none fun hb => h (hb.of_append (s := c :: s) hstop)
      rw [List.cons_append, declarationsFrom, piecesFrom, hnone]
      exact ho n false stop rest hstop

theorem declarationsFrom_segment (hs : ';' ∉ s) (hstop : Ends stop rest) :
    declarationsFrom n first (s ++ (stop ++ rest)) =
      read (String.ofList s) ++ declarationsFrom n false rest := by
  obtain ⟨o, -, ho⟩ := exists_declaration hs
  have hread : read (String.ofList s) = o.toList := by
    have halone := ho s.length true [] [] .text
    rw [read_eq, String.toList_ofList]
    simpa [declarationsFrom, piecesFrom] using halone
  rw [ho n first stop rest hstop, hread]

theorem declarationsFrom_eq_flatMap (s : List Char) : declarationsFrom n first s =
    (s.splitOn ';').flatMap fun segment => read (String.ofList segment) := by
  induction s using splitOn_induction ';' generalizing first with
  | last s hs =>
    have hend : declarationsFrom n first (s ++ ([] ++ [])) =
        read (String.ofList s) ++ declarationsFrom n false [] :=
      declarationsFrom_segment hs .text
    rw [List.splitOn_eq_singleton hs, List.flatMap_singleton]
    simpa [declarationsFrom, piecesFrom] using hend
  | step a b ha ih =>
    have hsegment : declarationsFrom n first (a ++ ([';'] ++ b)) =
        read (String.ofList a) ++ declarationsFrom n false b :=
      declarationsFrom_segment ha .semicolon
    rw [splitOn_append_cons ha, List.flatMap_cons, ← List.singleton_append, hsegment, ih]

theorem exists_stands {d : Declaration} (hd : d ∈ declarationsFrom n first s) :
    ∃ name value, Stands s name value ∧ d = declared name value := by
  induction s using splitOn_induction ';' generalizing first with
  | last s hs =>
    obtain ⟨o, hheld, ho⟩ := exists_declaration hs
    have halone := ho n first [] [] .text
    rw [List.append_nil, List.append_nil] at halone
    rw [halone] at hd
    exact hheld d (by simpa [declarationsFrom, piecesFrom] using hd)
  | step a b ha ih =>
    obtain ⟨o, hheld, ho⟩ := exists_declaration ha
    have hsegment := ho n first [';'] b .semicolon
    rw [List.singleton_append] at hsegment
    rw [hsegment] at hd
    obtain hd | hd := List.mem_append.mp hd
    · obtain ⟨name, value, hstands, heq⟩ := hheld d (by simpa using hd)
      exact ⟨name, value, hstands.mono (List.subset_append_left a _), heq⟩
    · obtain ⟨name, value, hstands, heq⟩ := ih hd
      have hsubset : b ⊆ a ++ ';' :: b := fun c hc => by simp [hc]
      exact ⟨name, value, hstands.mono hsubset, heq⟩

theorem length_read_le (hs : ';' ∉ s) : (read (String.ofList s)).length ≤ 1 := by
  obtain ⟨o, -, ho⟩ := exists_declaration hs
  have halone := ho s.length true [] [] .text
  rw [List.append_nil, List.append_nil] at halone
  rw [read_eq, String.toList_ofList, halone]
  cases o <;> simp [declarationsFrom, piecesFrom]

/-- Two texts with a semicolon between them are read one after the other, segment by segment, and a
segment holds one declaration at most. -/
theorem read_append_semicolon (s t : String) : read (s ++ ";" ++ t) = read s ++ read t ∧
    read s = ((s.toList.splitOn ';').flatMap fun segment => read (String.ofList segment)) ∧
      (';' ∉ s.toList → (read s).length ≤ 1) := by
  have hsegments (u : String) :
      read u = (u.toList.splitOn ';').flatMap fun segment => read (String.ofList segment) :=
    declarationsFrom_eq_flatMap u.toList
  refine ⟨?_, hsegments s, fun hs => ?_⟩
  · have htext : (s ++ ";" ++ t).toList = s.toList ++ ';' :: t.toList := by simp
    calc read (s ++ ";" ++ t)
      _ = ((s.toList ++ ';' :: t.toList).splitOn ';').flatMap
            fun segment => read (String.ofList segment) := by rw [hsegments, htext]
      _ = read s ++ read t := by
            rw [splitOn_append, List.flatMap_append, ← hsegments, ← hsegments]
  · simpa using length_read_le hs

theorem read_append_semicolon_garbage : ';' ∉ "%% a:b c:d !important".toList ∧
    (read "%% a:b c:d !important").length ≤ 1 ∧
      read ("%% a:b c:d !important" ++ ";" ++ ":x e;!;2f: g") =
        [⟨"a", "b c:d", true⟩, ⟨"f", "g", false⟩] := by
  have hs : ';' ∉ "%% a:b c:d !important".toList := by decide
  obtain ⟨happend, -, hone⟩ := read_append_semicolon "%% a:b c:d !important" ":x e;!;2f: g"
  exact ⟨hs, hone hs, happend.trans (by decide)⟩

end StyleFold.Reader.Lenient
