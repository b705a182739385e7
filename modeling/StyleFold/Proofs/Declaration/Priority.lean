import StyleFold.Proofs.Declaration.Lookup

/-!
Declaration lists with one priority throughout. Lookups do not see priorities, and the comparison of
priorities passes just those lists that have a single one.
-/
namespace StyleFold.Declaration

variable {policy : DuplicatePolicy} {name shorthand : String} {d : Declaration}
  {ds : List Declaration} {b c : Bool}

def uniform (b : Bool) (ds : List Declaration) : List Declaration :=
  ds.map fun d => d.withPriority b

theorem declaring_uniform (b : Bool) (name : String) (ds : List Declaration) :
    declaring name (uniform b ds) = uniform b (declaring name ds) :=
  List.filter_map

theorem find_uniform (policy : DuplicatePolicy) (name : String) (b : Bool)
    (ds : List Declaration) :
    find policy name (uniform b ds) =
      Option.map (fun d => d.withPriority b) <$> find policy name ds := by
  rw [find.eq_def, find.eq_def, declaring_uniform]
  cases policy with
  | first => exact congrArg Except.ok List.head?_map
  | last => exact congrArg Except.ok List.getLast?_map
  | reject => rcases declaring name ds with _ | ⟨d, _ | ⟨e, rest⟩⟩ <;> rfl

theorem require_uniform (policy : DuplicatePolicy) (shorthand name : String) (b : Bool)
    (ds : List Declaration) :
    require policy shorthand name (uniform b ds) =
      (fun d => d.withPriority b) <$> require policy shorthand name ds := by
  rw [require, require, find_uniform]
  rcases find policy name ds with e | _ | d <;> rfl

theorem mem_of_find (h : find policy name ds = .ok (some d)) : d ∈ ds ∧ d.property = name := by
  have hmem : d ∈ declaring name ds := by
    rw [find.eq_def] at h
    split at h
    · exact List.mem_of_head? (Except.ok.inj h)
    · exact List.mem_of_getLast? (Except.ok.inj h)
    · cases h
    · exact List.mem_of_head? (Except.ok.inj h)
  simpa [declaring] using hmem

theorem find_of_require (h : require policy shorthand name ds = .ok d) :
    find policy name ds = .ok (some d) := by
  obtain ⟨found?, hfind, hd⟩ := bind_eq_ok.mp h
  cases found? with
  | none => cases hd
  | some e =>
    obtain rfl := Except.ok.inj hd
    exact hfind

def firstFound (policy : DuplicatePolicy) (ds : List Declaration) :
    List String → Result (Option Declaration)
  | [] => .ok none
  | name :: names => do
    match ← find policy name ds with
    | some d => .ok (some d)
    | none => firstFound policy ds names

def chosen? (policy : DuplicatePolicy) (ds : List Declaration) (names : List String) :
    Option Declaration :=
  match firstFound policy ds names with
  | .ok found => found
  | .error _ => none

theorem chosen?_eq {found : Option Declaration} {names : List String}
    (h : firstFound policy ds names = .ok found) : chosen? policy ds names = found := by
  rw [chosen?, h]

theorem firstFound_of_require (h : require policy shorthand name ds = .ok d) :
    firstFound policy ds [name] = .ok (some d) := by
  rw [firstFound, find_of_require h]
  rfl

theorem important_eq_of_checkPriority (h : checkPriority shorthand b ds = .ok c) :
    c = b ∧ ∀ d ∈ ds, d.important = b := by
  induction ds with
  | nil =>
    cases h
    simp
  | cons d ds ih =>
    rw [checkPriority] at h
    split at h
    case isTrue hd =>
      obtain ⟨hc, hds⟩ := ih h
      exact ⟨hc, List.forall_mem_cons.mpr ⟨hd, hds⟩⟩
    case isFalse => cases h

/-- What is shared is the priority of every member of the list, and not only of the first two. -/
theorem important_eq_of_sharedPriority (h : sharedPriority shorthand ds = .ok b) :
    ∀ d ∈ ds, d.important = b := by
  cases ds with
  | nil => simp
  | cons d ds =>
    obtain ⟨rfl, hds⟩ := important_eq_of_checkPriority h
    exact List.forall_mem_cons.mpr ⟨rfl, hds⟩

end StyleFold.Declaration
