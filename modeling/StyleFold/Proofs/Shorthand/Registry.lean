import StyleFold.Proofs.Text.Bytes
import StyleFold.Proofs.Text.Letters
import StyleFold.Shorthand.Registry

/-!
A registry after any sequence of calls. It answers as the calls say, of which the last one for a
name counts, and it lists the names in the order of their bytes.
-/
namespace StyleFold.Registry
open Declaration (lowercase)
open Text (bytes sameWord)

variable {α : Type} {r : Registry α} {name n : String} {a : α} {es : List (String × α)}
  {calls : List (String × α)}

def Ascending (es : List (String × α)) : Prop :=
  es.Pairwise fun e f => e.1 < f.1

def lookup? (es : List (String × α)) (name : String) : Option α :=
  (es.find? fun e => e.1 = name).map Prod.snd

theorem lookup?_cons (e : String × α) (es : List (String × α)) (n : String) :
    lookup? (e :: es) n = if e.1 = n then some e.2 else lookup? es n := by
  by_cases h : e.1 = n <;> simp [lookup?, h]

theorem lookup?_eq_none (h : n ∉ es.map Prod.fst) : lookup? es n = none := by
  rw [lookup?, List.find?_eq_none.mpr]
  · rfl
  · intro e he heq
    exact h (List.mem_map.mpr ⟨e, he, by simpa using heq⟩)

theorem insert_lt {m : String} {b : α} (h : name < m) (es : List (String × α)) :
    insert name a ((m, b) :: es) = ((name, a) :: (m, b) :: es, none) := by
  rw [insert, if_neg (ne_of_lt h), if_pos h]

theorem insert_gt {m : String} {b : α} (h : m < name) (es : List (String × α)) :
    insert name a ((m, b) :: es) =
      ((m, b) :: (insert name a es).1, (insert name a es).2) := by
  rw [insert, if_neg (ne_of_gt h), if_neg (lt_asymm h)]

theorem insert_self (name : String) (a b : α) (es : List (String × α)) :
    insert name a ((name, b) :: es) = ((name, a) :: es, some b) := by
  rw [insert, if_pos rfl]

theorem mem_names_insert :
    n ∈ (insert name a es).1.map Prod.fst ↔ n = name ∨ n ∈ es.map Prod.fst := by
  induction es with
  | nil => simp [insert]
  | cons e es ih =>
    obtain ⟨m, b⟩ := e
    obtain h | rfl | h := lt_trichotomy name m
    · rw [insert_lt h]
      simp
    · rw [insert_self]
      simp
    · rw [insert_gt h, List.map_cons, List.mem_cons, ih, List.map_cons, List.mem_cons]
      exact or_left_comm

theorem Ascending.insert (h : Ascending es) : Ascending (insert name a es).1 := by
  induction es with
  | nil => exact List.pairwise_singleton _ _
  | cons e es ih =>
    obtain ⟨m, b⟩ := e
    obtain ⟨hm, hes⟩ := List.pairwise_cons.mp h
    obtain hlt | rfl | hgt := lt_trichotomy name m
    · rw [insert_lt hlt]
      exact List.pairwise_cons.mpr
        ⟨List.forall_mem_cons.mpr ⟨hlt, fun f hf => lt_trans hlt (hm f hf)⟩, h⟩
    · rw [insert_self]
      exact List.pairwise_cons.mpr ⟨hm, hes⟩
    · rw [insert_gt hgt]
      refine List.pairwise_cons.mpr ⟨fun f hf => ?_, ih hes⟩
      obtain heq | hmem := mem_names_insert.mp (List.mem_map_of_mem hf)
      · rwa [heq]
      · obtain ⟨g, hg, heq⟩ := List.mem_map.mp hmem
        rw [← heq]
        exact hm g hg

/-- An entry goes where it belongs whether or not the others are in order. -/
theorem lookup?_insert (es : List (String × α)) (n : String) :
    lookup? (insert name a es).1 n = if n = name then some a else lookup? es n := by
  induction es with
  | nil => simp only [insert, lookup?_cons, eq_comm]
  | cons e es ih =>
    obtain ⟨m, b⟩ := e
    obtain h | rfl | h := lt_trichotomy name m
    · rw [insert_lt h, lookup?_cons]
      simp only [eq_comm]
    · rw [insert_self, lookup?_cons, lookup?_cons]
      by_cases hn : n = name
      · simp [hn]
      · simp [hn, Ne.symm hn]
    · rw [insert_gt h, lookup?_cons, ih, lookup?_cons]
      by_cases hn : n = name
      · simp [hn, ne_of_lt h]
      · simp [hn]

/-- What is replaced is found before the first greater name. -/
theorem replaced_insert (h : Ascending es) : (insert name a es).2 = lookup? es name := by
  induction es with
  | nil => rfl
  | cons e es ih =>
    obtain ⟨m, b⟩ := e
    obtain ⟨hm, hes⟩ := List.pairwise_cons.mp h
    obtain hlt | rfl | hgt := lt_trichotomy name m
    · have habsent : name ∉ ((m, b) :: es).map Prod.fst := by
        rw [List.map_cons, List.mem_cons]
        rintro (heq | hmem)
        · exact ne_of_lt hlt heq
        · obtain ⟨f, hf, rfl⟩ := List.mem_map.mp hmem
          exact lt_asymm hlt (hm f hf)
      rw [insert_lt hlt, lookup?_eq_none habsent]
    · rw [insert_self, lookup?_cons, if_pos rfl]
    · rw [insert_gt hgt, lookup?_cons, if_neg (ne_of_lt hgt), ih hes]

theorem get?_eq (r : Registry α) (n : String) : r.get? n = lookup? r.entries (lowercase n) :=
  rfl

theorem register_eq (r : Registry α) (name : String) (a : α) : r.register name a =
    (⟨(insert (lowercase name) a r.entries).1⟩, (insert (lowercase name) a r.entries).2) :=
  rfl

theorem get?_register (r : Registry α) (name : String) (a : α) (n : String) :
    (r.register name a).1.get? n =
      if lowercase n = lowercase name then some a else r.get? n := by
  rw [register_eq, get?_eq, lookup?_insert, ← get?_eq]

theorem contains_iff (r : Registry α) (n : String) :
    r.contains n = true ↔ ∃ a, r.get? n = some a := by
  rw [contains, List.any_eq_true, ← Option.isSome_iff_exists, get?, Option.isSome_map,
    List.find?_isSome]

theorem lowercase_eq_iff {m n : String} :
    lowercase m = lowercase n ↔ sameWord m.toList n.toList = true := by
  rw [Text.sameWord_iff, lowercase, lowercase, String.ofList_inj]

def registerAll (r : Registry α) : List (String × α) → Registry α
  | [] => r
  | (name, a) :: calls => (r.register name a).1.registerAll calls

def ofCalls (calls : List (String × α)) : Registry α :=
  empty.registerAll calls

/-- What the last call says whose name is `n` in any letter case. -/
def lastCall? (calls : List (String × α)) (n : String) : Option α :=
  (calls.reverse.find? fun call => sameWord call.1.toList n.toList).map Prod.snd

/-- The registry is in order, and what it holds is what the calls say. -/
structure Follows (r : Registry α) (calls : List (String × α)) : Prop where
  ascending : Ascending r.entries
  found : ∀ n, r.get? n = lastCall? calls n
  named : ∀ n, n ∈ r.names ↔ ∃ call ∈ calls, lowercase call.1 = n

theorem lastCall?_concat (calls : List (String × α)) (name : String) (a : α) (n : String) :
    lastCall? (calls ++ [(name, a)]) n =
      if lowercase n = lowercase name then some a else lastCall? calls n := by
  rw [lastCall?, List.reverse_concat, List.find?_cons]
  by_cases h : lowercase n = lowercase name
  · rw [if_pos h, lowercase_eq_iff.mp h.symm]
    rfl
  · have hne : sameWord name.toList n.toList = false := by
      rw [← Bool.not_eq_true, ← lowercase_eq_iff]
      exact fun heq => h heq.symm
    rw [if_neg h, hne]
    rfl

theorem Follows.register (h : r.Follows calls) (name : String) (a : α) :
    (r.register name a).1.Follows (calls ++ [(name, a)]) := by
  obtain ⟨hascending, hfound, hnamed⟩ := h
  refine ⟨hascending.insert, fun n => ?_, fun n => ?_⟩
  · rw [get?_register, lastCall?_concat, hfound]
  · rw [register_eq, names, mem_names_insert, ← names, hnamed]
    simp only [List.mem_append, List.mem_singleton, or_and_right, exists_or, exists_eq_left]
    rw [or_comm, eq_comm]

theorem Follows.registerAll (h : r.Follows calls) (more : List (String × α)) :
    (r.registerAll more).Follows (calls ++ more) := by
  induction more generalizing r calls with
  | nil =>
    rw [List.append_nil]
    exact h
  | cons call more ih =>
    obtain ⟨name, a⟩ := call
    rw [List.append_cons]
    exact ih (h.register name a)

theorem follows_ofCalls (calls : List (String × α)) : (ofCalls calls).Follows calls := by
  have hempty : (empty : Registry α).Follows [] :=
    ⟨List.Pairwise.nil, fun _ => rfl, fun n => by simp [names, empty]⟩
  exact hempty.registerAll calls

theorem ofList_eq_ofCalls (ss : List Shorthand) :
    ofList ss = ofCalls (ss.map fun s => (s.property, s)) := by
  have hfrom (r : Registry Shorthand) : ss.foldl (fun r s => (r.register s.property s).1) r =
      r.registerAll (ss.map fun s => (s.property, s)) := by
    induction ss generalizing r with
    | nil => rfl
    | cons s ss ih => exact ih (r.register s.property s).1
  exact hfrom empty

theorem ascending_builtIn (duplicates : DuplicatePolicy) :
    Ascending (builtIn duplicates).entries := by
  rw [builtIn, ofList_eq_ofCalls]
  exact (follows_ofCalls _).ascending

theorem Ascending.bytes (h : Ascending r.entries) : (r.names.map bytes).Pairwise (· < ·) := by
  rw [names, List.map_map, List.pairwise_map]
  exact h.imp fun hlt => Text.bytes_lt hlt

/-- After any calls the last one for a name in any letter case counts, the names are listed without
repetition in the order of their bytes, and the next call returns what it takes the place of and
leaves all other names alone. -/
theorem ofCalls_history (calls : List (String × α)) :
    (∀ n, (ofCalls calls).get? n = lastCall? calls n) ∧
      (∀ n, (ofCalls calls).contains n = true ↔ ∃ a, (ofCalls calls).get? n = some a) ∧
      ((ofCalls calls).names.map bytes).Pairwise (· < ·) ∧
      (∀ n, n ∈ (ofCalls calls).names ↔ ∃ call ∈ calls, lowercase call.1 = n) ∧
      ∀ name a, ((ofCalls calls).register name a).2 = (ofCalls calls).get? name ∧
        ∀ n, lowercase n ≠ lowercase name →
          ((ofCalls calls).register name a).1.get? n = (ofCalls calls).get? n := by
  obtain ⟨hascending, hfound, hnamed⟩ := follows_ofCalls calls
  refine ⟨hfound, contains_iff _, hascending.bytes, hnamed, fun name a => ⟨?_, fun n hn => ?_⟩⟩
  · rw [register_eq, get?_eq]
    exact replaced_insert hascending
  · rw [get?_register, if_neg hn]

example : (ofCalls [("Margin", 1), ("font", 2), ("MARGIN", 3)]).names = ["font", "margin"] ∧
    (ofCalls [("Margin", 1), ("font", 2), ("MARGIN", 3)]).get? "mARGIN" = some 3 := by
  decide

end StyleFold.Registry
