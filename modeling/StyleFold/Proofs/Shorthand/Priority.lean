import StyleFold.Proofs.Declaration.Priority
import StyleFold.Shorthand.Basic

/-!
Priorities and values are converted apart from each other. A shorthand is made up of its longhands
in three steps: the longhands are gathered, their priorities are compared, and the value is written.
Neither the first step nor the last one sees a priority.
-/
namespace StyleFold
open Declaration

variable {κ : Type} {ds : List Declaration} {b c : Bool}

/-- The longhands of the slots in their order. Slots may stay empty. -/
def gather (pick : κ → Result (Option Declaration)) : List κ → Result (List (κ × Declaration))
  | [] => .ok []
  | k :: ks => do
    match ← pick k with
    | none => gather pick ks
    | some d =>
      let rest ← gather pick ks
      .ok ((k, d) :: rest)

def uniformSlots (b : Bool) (found : List (κ × Declaration)) : List (κ × Declaration) :=
  found.map fun (k, d) => (k, d.withPriority b)

theorem gather_uniform {pick pick' : κ → Result (Option Declaration)}
    (h : ∀ k, pick' k = Option.map (fun d => d.withPriority b) <$> pick k) (ks : List κ) :
    gather pick' ks = uniformSlots b <$> gather pick ks := by
  induction ks with
  | nil => rfl
  | cons k ks ih =>
    rw [gather, gather, h, ih]
    rcases pick k with e | _ | d
    · rfl
    · rfl
    · rcases gather pick ks with e | rest <;> rfl

theorem map_snd_gather {pick : κ → Result (Option Declaration)} {select : κ → Option Declaration}
    {found : List (κ × Declaration)} {ks : List κ}
    (h : ∀ k o, pick k = .ok o → select k = o) (hfound : gather pick ks = .ok found) :
    found.map Prod.snd = ks.filterMap select := by
  induction ks generalizing found with
  | nil =>
    cases hfound
    rfl
  | cons k ks ih =>
    rw [gather] at hfound
    rcases hk : pick k with e | _ | d <;> rw [hk] at hfound
    · cases hfound
    · rw [List.filterMap_cons_none (h k _ hk)]
      exact ih hfound
    · rcases hrest : gather pick ks with e | rest <;> rw [hrest] at hfound <;> cases hfound
      rw [List.filterMap_cons_some (h k _ hk), List.map_cons, ih hrest]

/-- How a shorthand is made up of the longhands in its slots. What it takes from a declaration list
is what the policy selects, and priorities change neither the choice nor the value. -/
structure Assembly (κ : Type) where
  property : String
  policy : DuplicatePolicy
  slots : List κ
  names : κ → List String
  refusal : Nat → Option ConversionError
  pick : List Declaration → κ → Result (Option Declaration)
  value : List (κ × Declaration) → Result String
  pick_uniform : ∀ b ds k,
    pick (uniform b ds) k = Option.map (fun d => d.withPriority b) <$> pick ds k
  chosen_of_pick : ∀ ds k found, pick ds k = .ok found → chosen? policy ds (names k) = found
  value_uniform : ∀ b found, value (uniformSlots b found) = value found
  error_of_empty : ∀ ds, gather (pick ds) slots = .ok [] → ∃ e, value [] = .error e

namespace Assembly

variable (a : Assembly κ)

def collapse (ds : List Declaration) : Result Declaration :=
  match a.refusal ds.length with
  | some e => .error e
  | none => do
    let found ← gather (a.pick ds) a.slots
    let important ← sharedPriority a.property (found.map Prod.snd)
    let value ← a.value found
    .ok ((Declaration.of a.property value).withPriority important)

def chosen (ds : List Declaration) : List Declaration :=
  (a.slots.map a.names).filterMap (chosen? a.policy ds)

def text (ds : List Declaration) : Result String :=
  match a.refusal ds.length with
  | some e => .error e
  | none => gather (a.pick ds) a.slots >>= a.value

variable {a}

theorem map_snd_eq_chosen {found : List (κ × Declaration)}
    (h : gather (a.pick ds) a.slots = .ok found) : found.map Prod.snd = a.chosen ds := by
  rw [chosen, List.filterMap_map]
  exact map_snd_gather (a.chosen_of_pick ds) h

theorem text_uniform (b : Bool) (ds : List Declaration) : a.text (uniform b ds) = a.text ds := by
  have hgather : gather (a.pick (uniform b ds)) a.slots =
      uniformSlots b <$> gather (a.pick ds) a.slots :=
    gather_uniform (a.pick_uniform b ds) a.slots
  rw [text, text, hgather, uniform, List.length_map]
  split
  · rfl
  · rcases gather (a.pick ds) a.slots with e | found
    · rfl
    · exact a.value_uniform b found

/-- Where all that is gathered has one priority, so has the shorthand, and its value is the text. -/
theorem collapse_of_shared
    (h : ∀ found, gather (a.pick ds) a.slots = .ok found → ∀ x ∈ found, x.2.important = b) :
    a.collapse ds = (fun v => (Declaration.of a.property v).withPriority b) <$> a.text ds := by
  rw [collapse, text]
  split
  · rfl
  · rcases hfound : gather (a.pick ds) a.slots with e | _ | ⟨x, found⟩
    · rfl
    · obtain ⟨e, he⟩ := a.error_of_empty ds hfound
      simp only [he, bind, Except.bind, List.map_nil, sharedPriority]
      rfl
    · have hshared : sharedPriority a.property ((x :: found).map Prod.snd) = .ok b := by
        refine sharedPriority_eq_ok (List.forall_mem_map.mpr (h _ hfound)) ?_ _
        simp
      simp only [hshared, bind, Except.bind]
      rcases a.value (x :: found) with e | v <;> rfl

theorem collapse_uniform (b : Bool) (ds : List Declaration) :
    a.collapse (uniform b ds) =
      (fun v => (Declaration.of a.property v).withPriority b) <$> a.text ds := by
  rw [← text_uniform b ds]
  refine collapse_of_shared fun found hfound x hx => ?_
  rw [gather_uniform (a.pick_uniform b ds)] at hfound
  obtain ⟨gathered, -, rfl⟩ := map_eq_ok.mp hfound
  obtain ⟨y, -, rfl⟩ := List.mem_map.mp hx
  rfl

theorem collapse_eq_uniform (h : ∀ d ∈ a.chosen ds, d.important = b) :
    a.collapse ds = a.collapse (uniform b ds) := by
  rw [collapse_uniform]
  refine collapse_of_shared fun found hfound x hx => h x.2 ?_
  rw [← map_snd_eq_chosen hfound]
  exact List.mem_map_of_mem hx

theorem exists_of_collapse {d : Declaration} (h : a.collapse ds = .ok d) :
    (∃ value, d = (Declaration.of a.property value).withPriority d.important) ∧
      ∀ e ∈ a.chosen ds, e.important = d.important := by
  rw [collapse] at h
  split at h
  · cases h
  · obtain ⟨found, hfound, h⟩ := bind_eq_ok.mp h
    obtain ⟨b, hb, h⟩ := bind_eq_ok.mp h
    obtain ⟨value, -, h⟩ := bind_eq_ok.mp h
    cases h
    rw [← map_snd_eq_chosen hfound]
    exact ⟨⟨value, rfl⟩, important_eq_of_sharedPriority hb⟩

theorem exists_collapse_error {d e : Declaration} (hd : d ∈ a.chosen ds) (he : e ∈ a.chosen ds)
    (hne : d.important ≠ e.important) : ∃ err, a.collapse ds = .error err := by
  cases h : a.collapse ds with
  | error err => exact ⟨err, rfl⟩
  | ok made =>
    have hmade := (exists_of_collapse h).2
    exact absurd ((hmade d hd).trans (hmade e he).symm) hne

end Assembly

theorem gather_required_cons (pick : κ → Result Declaration) (k : κ) (ks : List κ) :
    gather (fun k => some <$> pick k) (k :: ks) =
      pick k >>= fun d =>
        gather (fun k => some <$> pick k) ks >>= fun rest => .ok ((k, d) :: rest) := by
  rw [gather]
  cases pick k <;> rfl

theorem gather_required_ne_nil {pick : κ → Result Declaration} {ks : List κ} (hks : ks ≠ []) :
    gather (fun k => some <$> pick k) ks ≠ .ok [] := by
  obtain ⟨k, ks, rfl⟩ := List.exists_cons_of_ne_nil hks
  intro h
  rw [gather_required_cons] at h
  obtain ⟨d, -, h⟩ := bind_eq_ok.mp h
  obtain ⟨rest, -, h⟩ := bind_eq_ok.mp h
  cases h

theorem required_uniform {x y : Result Declaration} (h : y = (fun d => d.withPriority b) <$> x) :
    some <$> y = Option.map (fun d => d.withPriority b) <$> some <$> x := by
  subst h
  cases x <;> rfl

theorem chosen?_of_required {policy : DuplicatePolicy} {names : List String}
    {x : Result Declaration} {found : Option Declaration} (h : some <$> x = .ok found)
    (hx : ∀ d, x = .ok d → firstFound policy ds names = .ok (some d)) :
    chosen? policy ds names = found := by
  obtain ⟨d, hd, rfl⟩ := map_eq_ok.mp h
  exact chosen?_eq (hx d hd)

theorem map_trimmedValue_uniformSlots (b : Bool) (found : List (κ × Declaration)) :
    ((uniformSlots b found).map Prod.snd).map trimmedValue =
      (found.map Prod.snd).map trimmedValue := by
  simp only [uniformSlots, List.map_map]
  rfl

namespace SidesShorthand

variable {policy : DuplicatePolicy} {property : String} {naming : LonghandNaming}

def assembly (policy : DuplicatePolicy) (property : String) (naming : LonghandNaming) :
    Assembly Side where
  property := property
  policy := policy
  slots := Side.all
  names side := [naming.longhand property side]
  refusal n := if n = 4 then none else some (.longhandCount property 4 n)
  pick ds side := some <$> require policy property (naming.longhand property side) ds
  value found := .ok (joined (found.map Prod.snd))
  pick_uniform b ds side := required_uniform (require_uniform policy property _ b ds)
  chosen_of_pick ds side found h := chosen?_of_required h fun _ => firstFound_of_require
  value_uniform b found := by
    rw [joined, joined, map_trimmedValue_uniformSlots]
  error_of_empty ds h := absurd h (gather_required_ne_nil (by decide))

theorem selected_eq_gather (ds : List Declaration) (sides : List Side) :
    selected policy property naming ds sides =
      List.map Prod.snd <$> gather (fun side =>
        some <$> require policy property (naming.longhand property side) ds) sides := by
  induction sides with
  | nil => rfl
  | cons side sides ih =>
    rw [selected, gather_required_cons, ih]
    rcases require policy property (naming.longhand property side) ds with e | d
    · rfl
    · rcases gather _ sides with e | rest <;> rfl

theorem collapse_eq_assembly : collapse policy property naming =
    (assembly policy property naming).collapse := by
  funext ds
  rw [collapse, Assembly.collapse, selected_eq_gather]
  simp only [assembly]
  by_cases hfour : ds.length = 4
  · rw [if_pos hfour, if_pos hfour]
    rcases gather _ Side.all with e | found
    · rfl
    · rfl
  · rw [if_neg hfour, if_neg hfour]

end SidesShorthand

namespace BorderShorthand

variable {policy : DuplicatePolicy}

def pick (policy : DuplicatePolicy) (ds : List Declaration) (part : BorderPart) :
    Result (Option Declaration) := do
  match ← find policy part.longhand ds with
  | none => .ok none
  | some d =>
    if (Value.split d.value).length = 1 then .ok (some d)
    else .error (.invalidValue part.longhand .severalValues)

def assembly (policy : DuplicatePolicy) : Assembly BorderPart where
  property := property
  policy := policy
  slots := BorderPart.all
  names part := [part.longhand]
  refusal _ := none
  pick := pick policy
  value
    | [] => .error (.missingLonghand property "border-width, border-style or border-color")
    | found => .ok (Text.spaced ((found.map Prod.snd).map trimmedValue))
  pick_uniform b ds part := by
    rw [pick, pick, find_uniform]
    rcases find policy part.longhand ds with e | _ | d
    · rfl
    · rfl
    · simp only [bind, Except.bind, Functor.map, Except.map, Option.map, withPriority]
      split <;> rfl
  chosen_of_pick ds part found h := by
    obtain ⟨o, hfind, h⟩ := bind_eq_ok.mp h
    refine chosen?_eq ?_
    rw [firstFound, hfind]
    cases o with
    | none => exact h
    | some d =>
      dsimp only at h
      split at h
      · exact h
      · cases h
  value_uniform b found := by
    cases found with
    | nil => rfl
    | cons x found =>
      exact congrArg (fun vs => Except.ok (Text.spaced vs))
        (map_trimmedValue_uniformSlots b (x :: found))
  error_of_empty ds h := ⟨_, rfl⟩

theorem selected_eq_gather (ds : List Declaration) (parts : List BorderPart) :
    selected policy ds parts = List.map Prod.snd <$> gather (pick policy ds) parts := by
  induction parts with
  | nil => rfl
  | cons part parts ih =>
    rw [selected, gather, ih, pick]
    rcases find policy part.longhand ds with e | _ | d
    · rfl
    · rfl
    · simp only [bind, Except.bind]
      split
      · rcases gather (pick policy ds) parts with e | rest <;> rfl
      · rfl

theorem collapse_eq_assembly : collapse policy = (assembly policy).collapse := by
  funext ds
  rw [collapse, Assembly.collapse, selected_eq_gather]
  simp only [assembly]
  rcases gather (pick policy ds) BorderPart.all with e | _ | ⟨x, found⟩
  · rfl
  · rfl
  · rfl

end BorderShorthand

theorem find?_uniformSlots [DecidableEq κ] (b : Bool) (found : List (κ × Declaration)) (k : κ) :
    (uniformSlots b found).find? (fun (k', _) => k' = k) =
      (found.find? fun (k', _) => k' = k).map fun (k, d) => (k, d.withPriority b) :=
  List.find?_map

namespace BackgroundShorthand

variable {policy : DuplicatePolicy}

theorem given?_uniformSlots (b : Bool) (found : List (BackgroundSlot × Declaration)) :
    given? (uniformSlots b found) = given? found := by
  funext slot
  rw [given?, given?, find?_uniformSlots]
  rcases found.find? _ with _ | ⟨k, d⟩ <;> rfl

def assembly (policy : DuplicatePolicy) : Assembly BackgroundSlot where
  property := property
  policy := policy
  slots := BackgroundSlot.all
  names slot := [slot.longhand]
  refusal _ := none
  pick ds slot := some <$> require policy property slot.longhand ds
  value found :=
    match parts (given? found) with
    | [] => .ok initial
    | ps => .ok (Text.spaced ps)
  pick_uniform b ds slot := required_uniform (require_uniform policy property _ b ds)
  chosen_of_pick ds slot found h := chosen?_of_required h fun _ => firstFound_of_require
  value_uniform b found := by rw [given?_uniformSlots]
  error_of_empty ds h := absurd h (gather_required_ne_nil (by decide))

theorem selected_eq_gather (ds : List Declaration) (slots : List BackgroundSlot) :
    selected policy ds slots =
      gather (fun slot => some <$> require policy property slot.longhand ds) slots := by
  induction slots with
  | nil => rfl
  | cons slot slots ih => rw [selected, gather_required_cons, ih]

theorem collapse_eq_assembly : collapse policy = (assembly policy).collapse := by
  funext ds
  rw [collapse, Assembly.collapse, selected_eq_gather]
  simp only [assembly]
  rcases gather _ BackgroundSlot.all with e | found
  · rfl
  · simp only [bind, Except.bind]
    rcases sharedPriority _ _ with e | b
    · rfl
    · dsimp only
      rcases parts (given? found) with _ | ⟨p, ps⟩ <;> rfl

end BackgroundShorthand

namespace FontShorthand

variable {policy : DuplicatePolicy}

def names : FontSlot → List String
  | .height => [FontSlot.height.longhand, "line-height"]
  | slot => [slot.longhand]

theorem declared_uniform (b : Bool) (ds : List Declaration) (slot : FontSlot) :
    declared policy (uniform b ds) slot =
      (fun d => d.withPriority b) <$> declared policy ds slot := by
  cases slot with
  | height =>
    rw [declared, declared, find_uniform, find_uniform]
    rcases find policy FontSlot.height.longhand ds with e | _ | d
    · rfl
    · rcases find policy "line-height" ds with e | _ | d <;> rfl
    · rfl
  | style | variant | weight | size | family | system =>
    exact require_uniform policy property _ b ds

theorem firstFound_of_declared {ds : List Declaration} {slot : FontSlot} {d : Declaration}
    (h : declared policy ds slot = .ok d) : firstFound policy ds (names slot) = .ok (some d) := by
  cases slot with
  | height =>
    obtain ⟨found, hfind, h⟩ := bind_eq_ok.mp h
    rw [names, firstFound, hfind]
    cases found with
    | some f =>
      cases h
      rfl
    | none =>
      obtain ⟨other, hother, h⟩ := bind_eq_ok.mp h
      cases other with
      | none => cases h
      | some f =>
        cases h
        simp only [bind, Except.bind, firstFound, hother]
  | style | variant | weight | size | family | system => exact firstFound_of_require h

theorem found?_uniformSlots (b : Bool) (found : List (FontSlot × Declaration)) (slot : FontSlot) :
    found? (uniformSlots b found) slot =
      (found? found slot).map fun d => d.withPriority b := by
  rw [found?, found?, find?_uniformSlots]
  rcases found.find? _ with _ | ⟨k, d⟩ <;> rfl

theorem given?_uniformSlots (b : Bool) (found : List (FontSlot × Declaration)) :
    given? (uniformSlots b found) = given? found := by
  funext slot
  rw [given?, given?, found?_uniformSlots]
  cases found? found slot <;> rfl

theorem sizeWords_uniformSlots (b : Bool) (found : List (FontSlot × Declaration)) :
    sizeWords (uniformSlots b found) = sizeWords found := by
  rw [sizeWords, sizeWords, given?_uniformSlots, found?_uniformSlots, Option.map_map]
  rfl

def written (found : List (FontSlot × Declaration)) : Result String := do
  let words ← sizeWords found
  let given := fun s => (given? found s).toList
  match given .style ++ given .variant ++ given .weight ++ words ++ given .family ++
    given .system with
  | [] => .ok initial
  | ps => .ok (Text.spaced ps)

def assembly (policy : DuplicatePolicy) : Assembly FontSlot where
  property := property
  policy := policy
  slots := FontSlot.all
  names := names
  refusal _ := none
  pick ds slot := some <$> declared policy ds slot
  value := written
  pick_uniform b ds slot := required_uniform (declared_uniform b ds slot)
  chosen_of_pick ds slot found h := chosen?_of_required h fun _ => firstFound_of_declared
  value_uniform b found := by
    rw [written, written, sizeWords_uniformSlots, given?_uniformSlots]
  error_of_empty ds h := absurd h (gather_required_ne_nil (by decide))

theorem selected_eq_gather (ds : List Declaration) (slots : List FontSlot) :
    selected policy ds slots = gather (fun slot => some <$> declared policy ds slot) slots := by
  induction slots with
  | nil => rfl
  | cons slot slots ih => rw [selected, gather_required_cons, ih]

theorem collapse_eq_assembly : collapse policy = (assembly policy).collapse := by
  funext ds
  rw [collapse, Assembly.collapse, selected_eq_gather]
  simp only [assembly, written]
  rcases gather _ FontSlot.all with e | found
  · rfl
  · simp only [bind, Except.bind]
    rcases sharedPriority _ _ with e | b
    · rfl
    · dsimp only
      rcases sizeWords found with e | words
      · rfl
      · dsimp only
        rcases _ ++ _ with _ | ⟨p, ps⟩ <;> rfl

end FontShorthand

/-- The names of the longhands, each with the names that stand in for it behind it. -/
def Family.alternatives : Family → List (List String)
  | sides property naming => Side.all.map fun side => [naming.longhand property side]
  | border => BorderPart.all.map fun part => [part.longhand]
  | background => BackgroundSlot.all.map fun slot => [slot.longhand]
  | font => FontSlot.all.map FontShorthand.names

namespace Shorthand

def chosen (s : Shorthand) (ds : List Declaration) : List Declaration :=
  s.family.alternatives.filterMap (chosen? s.duplicates ds)

theorem exists_assembly (s : Shorthand) :
    ∃ (κ : Type) (a : Assembly κ), s.collapse = a.collapse ∧ s.chosen = a.chosen := by
  obtain ⟨family, policy⟩ := s
  cases family with
  | sides property naming =>
    exact ⟨Side, _, SidesShorthand.collapse_eq_assembly, rfl⟩
  | border => exact ⟨BorderPart, _, BorderShorthand.collapse_eq_assembly, rfl⟩
  | background => exact ⟨BackgroundSlot, _, BackgroundShorthand.collapse_eq_assembly, rfl⟩
  | font => exact ⟨FontSlot, _, FontShorthand.collapse_eq_assembly, rfl⟩

theorem expand_withPriority (s : Shorthand) (d : Declaration) (b : Bool) :
    s.expand (d.withPriority b) = uniform b <$> s.expand d := by
  rw [expand, expand]
  by_cases h : d.property = s.property
  · rw [if_pos h, if_pos (show (d.withPriority b).property = s.property from h)]
    refine congrArg Except.ok ?_
    rw [uniform, List.map_map]
    rfl
  · rw [if_neg h, if_neg (show ¬ (d.withPriority b).property = s.property from h)]
    rfl

/-- The priority of a shorthand is that of its longhands, and the rest of a conversion, the errors
included, comes about without it. Longhands that differ in priority make up no shorthand. -/
theorem priority_apart (s : Shorthand) (ds : List Declaration) :
    (∀ d b, s.expand (d.withPriority b) = uniform b <$> s.expand d) ∧
      (∀ b c, s.collapse (uniform b ds) =
        (fun d => d.withPriority b) <$> s.collapse (uniform c ds)) ∧
      (∀ b, (∀ d ∈ s.chosen ds, d.important = b) → s.collapse ds = s.collapse (uniform b ds)) ∧
      (∀ d ∈ s.chosen ds, ∀ e ∈ s.chosen ds, d.important ≠ e.important →
        ∃ err, s.collapse ds = .error err) := by
  obtain ⟨κ, a, hcollapse, hchosen⟩ := s.exists_assembly
  rw [hcollapse, hchosen]
  refine ⟨s.expand_withPriority, fun b c => ?_, fun b => Assembly.collapse_eq_uniform,
    fun d hd e he => Assembly.exists_collapse_error hd he⟩
  rw [Assembly.collapse_uniform, Assembly.collapse_uniform]
  cases a.text ds <;> rfl

/-- Of the two styles the first one is important, and the last one is as normal as the width. -/
def twoStyles : List Declaration :=
  [⟨"border-style", "solid", true⟩, ⟨"border-width", "1px", false⟩,
    ⟨"border-style", "dotted", false⟩]

theorem priority_apart_twoStyles :
    (∀ d ∈ (Shorthand.mk .border .last).chosen twoStyles, d.important = false) ∧
      (Shorthand.mk .border .last).collapse twoStyles =
        (Shorthand.mk .border .last).collapse (uniform false twoStyles) ∧
      ⟨"border-width", "1px", false⟩ ∈ (Shorthand.mk .border .first).chosen twoStyles ∧
      ⟨"border-style", "solid", true⟩ ∈ (Shorthand.mk .border .first).chosen twoStyles ∧
      ∃ err, (Shorthand.mk .border .first).collapse twoStyles = .error err := by
  have hlast : ∀ d ∈ (Shorthand.mk .border .last).chosen twoStyles, d.important = false := by
    decide
  have hwidth : ⟨"border-width", "1px", false⟩ ∈
      (Shorthand.mk .border .first).chosen twoStyles := by decide
  have hstyle : ⟨"border-style", "solid", true⟩ ∈
      (Shorthand.mk .border .first).chosen twoStyles := by decide
  obtain ⟨-, -, hshared, -⟩ := priority_apart ⟨.border, .last⟩ twoStyles
  obtain ⟨-, -, -, hmixed⟩ := priority_apart ⟨.border, .first⟩ twoStyles
  exact ⟨hlast, hshared false hlast, hwidth, hstyle, hmixed _ hwidth _ hstyle (by decide)⟩

end Shorthand
end StyleFold
