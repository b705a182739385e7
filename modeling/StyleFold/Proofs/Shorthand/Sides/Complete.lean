import StyleFold.Proofs.Declaration.Priority
import StyleFold.Proofs.Shorthand.Sides

/-!
The lists of longhands that collapse to four sides. A list of four declarations has room for no more
than one of each side, so that neither the policy nor the order of the list can make a difference.
-/
namespace StyleFold
open Declaration

theorem LonghandNaming.longhand_injective (naming : LonghandNaming) (property : String) :
    Function.Injective (naming.longhand property) := by
  have hnames : Function.Injective Side.name := by
    intro side other
    cases side <;> cases other <;> decide
  intro side other h
  rw [longhand.eq_def, longhand.eq_def] at h
  split at h
  · exact hnames ((String.append_right_inj _).mp
      ((String.append_left_inj _).mp ((String.append_left_inj _).mp h)))
  · exact hnames ((String.append_right_inj _).mp h)

namespace SidesShorthand

variable {policy : DuplicatePolicy} {property : String} {naming : LonghandNaming}
  {found : Side → Declaration} {important : Bool} {d : Declaration} {ds es ls : List Declaration}
  {sides : List Side}

/-- The list holds one longhand of each side and nothing else, all of one priority. -/
structure Complete (property : String) (naming : LonghandNaming) (found : Side → Declaration)
    (important : Bool) (ds : List Declaration) : Prop where
  perm : ds.Perm (Side.all.map found)
  named : ∀ side, (found side).property = naming.longhand property side
  shared : ∀ side, (found side).important = important

namespace Complete

theorem of_perm (h : Complete property naming found important ds) (hperm : ds.Perm es) :
    Complete property naming found important es :=
  { h with perm := hperm.symm.trans h.perm }

theorem names_perm (h : Complete property naming found important ds) :
    (ds.map Declaration.property).Perm (Side.all.map (naming.longhand property)) := by
  have hnames : Side.all.map (naming.longhand property) =
      (Side.all.map found).map Declaration.property := by
    rw [List.map_map]
    exact List.map_congr_left fun side _ => (h.named side).symm
  rw [hnames]
  exact h.perm.map Declaration.property

theorem nodup (h : Complete property naming found important ds) :
    (ds.map Declaration.property).Nodup :=
  h.names_perm.nodup_iff.mpr
    ((by decide : Side.all.Nodup).map (naming.longhand_injective property))

theorem find_eq (h : Complete property naming found important ds) (policy : DuplicatePolicy)
    (side : Side) : find policy (naming.longhand property side) ds = .ok (some (found side)) := by
  rw [← h.named side]
  exact find_of_mem h.nodup (h.perm.mem_iff.mpr (List.mem_map_of_mem (Side.mem_all side)))

theorem collapse_eq (h : Complete property naming found important ds) (policy : DuplicatePolicy) :
    collapse policy property naming ds =
      .ok ((Declaration.of property (joined (Side.all.map found))).withPriority important) := by
  have hpriority : sharedPriority property (Side.all.map found) = .ok important := by
    refine sharedPriority_eq_ok (fun d hd => ?_) (by simp [Side.all]) property
    obtain ⟨side, -, rfl⟩ := List.mem_map.mp hd
    exact h.shared side
  have hlength : ds.length = 4 := h.perm.length_eq
  rw [collapse, if_pos hlength, selected_eq_ok (h.find_eq policy)]
  simp only [bind, Except.bind, hpriority]

theorem count_eq_one (h : Complete property naming found important ds) (side : Side) :
    (ds.map Declaration.property).count (naming.longhand property side) = 1 :=
  List.count_eq_one_of_mem h.nodup
    (h.names_perm.mem_iff.mpr (List.mem_map_of_mem (Side.mem_all side)))

theorem important_eq (h : Complete property naming found important ds) :
    ∀ d ∈ ds, d.important = important := by
  intro d hd
  obtain ⟨side, -, rfl⟩ := List.mem_map.mp (h.perm.mem_iff.mp hd)
  exact h.shared side

/-- Four declarations among which there is one of each side are these and no others. -/
theorem of_mem (hlength : ds.length = 4) (hmem : ∀ side, found side ∈ ds)
    (hnamed : ∀ side, (found side).property = naming.longhand property side)
    (hshared : ∀ side, (found side).important = important) :
    Complete property naming found important ds := by
  have hinjective : Function.Injective found := fun side other h =>
    naming.longhand_injective property (by rw [← hnamed, ← hnamed, h])
  have hnodup : (Side.all.map found).Nodup := (by decide : Side.all.Nodup).map hinjective
  have hsubset : Side.all.map found ⊆ ds := by
    intro d hd
    obtain ⟨side, -, rfl⟩ := List.mem_map.mp hd
    exact hmem side
  -- Four different longhands among four declarations leave no room for another one.
  have hperm := (List.subperm_of_subset hnodup hsubset).perm_of_length_le hlength.le
  exact ⟨hperm.symm, hnamed, hshared⟩

end Complete

theorem exists_of_selected (h : selected policy property naming ds sides = .ok ls) :
    ∀ side ∈ sides, ∃ d ∈ ls, d ∈ ds ∧ d.property = naming.longhand property side := by
  induction sides generalizing ls with
  | nil => simp
  | cons side sides ih =>
    obtain ⟨d, hd, h⟩ := bind_eq_ok.mp h
    obtain ⟨rest, hrest, h⟩ := bind_eq_ok.mp h
    obtain rfl := Except.ok.inj h
    have hfound := mem_of_find (find_of_require hd)
    refine List.forall_mem_cons.mpr ⟨⟨d, List.mem_cons_self, hfound⟩, ?_⟩
    intro other hother
    obtain ⟨e, he, hfound⟩ := ih hrest other hother
    exact ⟨e, List.mem_cons_of_mem d he, hfound⟩

theorem exists_complete_of_collapse (h : collapse policy property naming ds = .ok d) :
    ∃ found important, Complete property naming found important ds := by
  rw [collapse] at h
  split at h
  case isFalse => cases h
  rename_i hlength
  obtain ⟨ls, hls, h⟩ := bind_eq_ok.mp h
  obtain ⟨important, hpriority, -⟩ := bind_eq_ok.mp h
  have hselected := fun side => exists_of_selected hls side (Side.mem_all side)
  choose found hls hmem hnamed using hselected
  have hshared := fun side => important_eq_of_sharedPriority hpriority _ (hls side)
  exact ⟨found, important, .of_mem hlength hmem hnamed hshared⟩

theorem exists_complete_of_count (hlength : ds.length = 4)
    (hcount : ∀ side, (ds.map Declaration.property).count (naming.longhand property side) = 1)
    (hshared : ∀ d ∈ ds, ∀ e ∈ ds, d.important = e.important) :
    ∃ found important, Complete property naming found important ds := by
  have hexists (side : Side) : ∃ d ∈ ds, d.property = naming.longhand property side := by
    refine List.mem_map.mp (List.count_pos_iff.mp ?_)
    rw [hcount side]
    exact one_pos
  choose found hmem hnamed using hexists
  exact ⟨found, (found .top).important, .of_mem hlength hmem hnamed fun side =>
    hshared _ (hmem side) _ (hmem .top)⟩

/-- Longhands collapse just if there are four of them, one of each side, with one priority. Which policy
is in force and in what order they stand makes no difference then. -/
theorem collapse_complete (policy : DuplicatePolicy) (property : String) (naming : LonghandNaming)
    (ds : List Declaration) :
    ((∃ d, Shorthand.collapse ⟨.sides property naming, policy⟩ ds = .ok d) ↔
        ds.length = 4 ∧
          (∀ side, (ds.map Declaration.property).count (naming.longhand property side) = 1) ∧
          ∀ d ∈ ds, ∀ e ∈ ds, d.important = e.important) ∧
      ∀ d, Shorthand.collapse ⟨.sides property naming, policy⟩ ds = .ok d →
        ∀ policy' es, ds.Perm es →
          Shorthand.collapse ⟨.sides property naming, policy'⟩ es = .ok d := by
  refine ⟨⟨fun ⟨d, h⟩ => ?_, fun ⟨hlength, hcount, hshared⟩ => ?_⟩, fun d h policy' es hperm => ?_⟩
  · obtain ⟨found, important, hcomplete⟩ := exists_complete_of_collapse h
    have himportant := hcomplete.important_eq
    refine ⟨hcomplete.perm.length_eq, hcomplete.count_eq_one, fun d hd e he => ?_⟩
    rw [himportant d hd, himportant e he]
  · obtain ⟨found, important, hcomplete⟩ := exists_complete_of_count hlength hcount hshared
    exact ⟨_, hcomplete.collapse_eq policy⟩
  · obtain ⟨found, important, hcomplete⟩ := exists_complete_of_collapse h
    have hsame := (hcomplete.of_perm hperm).collapse_eq policy'
    rw [← hcomplete.collapse_eq policy] at hsame
    exact hsame.trans h

/-- The sides of a shorthand whose name has capital letters, with blanks around some values. -/
def gapSides : List Declaration :=
  [⟨"Gap-left-X", " 2px", true⟩, ⟨"Gap-top-X", "1px", true⟩, ⟨"Gap-bottom-X", "1px", true⟩,
    ⟨"Gap-right-X", "2px ", true⟩]

theorem collapse_complete_gapSides : gapSides.length = 4 ∧
    (∀ side, (gapSides.map Declaration.property).count
      (LonghandNaming.longhand .within "Gap-X" side) = 1) ∧
    (∀ d ∈ gapSides, ∀ e ∈ gapSides, d.important = e.important) ∧
    gapSides.Perm gapSides.reverse ∧
    (∃ d, Shorthand.collapse ⟨.sides "Gap-X" .within, .reject⟩ gapSides = .ok d) ∧
    Shorthand.collapse ⟨.sides "Gap-X" .within, .last⟩ gapSides.reverse =
      .ok ⟨"gap-x", "1px 2px", true⟩ := by
  have hcount (side : Side) : (gapSides.map Declaration.property).count
      (LonghandNaming.longhand .within "Gap-X" side) = 1 := by
    cases side <;> decide +kernel
  have hshared : ∀ d ∈ gapSides, ∀ e ∈ gapSides, d.important = e.important := by decide
  have hperm : gapSides.Perm gapSides.reverse := gapSides.reverse_perm.symm
  have hcollapse : Shorthand.collapse ⟨.sides "Gap-X" .within, .reject⟩ gapSides =
      .ok ⟨"gap-x", "1px 2px", true⟩ := by decide +kernel
  obtain ⟨hiff, hsame⟩ := collapse_complete .reject "Gap-X" .within gapSides
  exact ⟨rfl, hcount, hshared, hperm, hiff.mpr ⟨rfl, hcount, hshared⟩,
    hsame _ hcollapse .last _ hperm⟩

end SidesShorthand
end StyleFold
