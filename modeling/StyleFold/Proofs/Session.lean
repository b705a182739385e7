import StyleFold.Proofs.Shorthand.Ownership
import StyleFold.Proofs.Shorthand.Priority
import StyleFold.Session

/-!
Sessions after any steps. A step that fails might as well be left out. The list holds lowercase names,
names are listed in the order of their bytes, and what is looked up in the shared registry is what was
registered last, whatever else the session did.
-/
namespace StyleFold
open Declaration (lowercase)

namespace Shorthand

variable {s : Shorthand} {d : Declaration} {ds : List Declaration}

theorem lowercase_of_expand (h : s.expand d = .ok ds) :
    ∀ l ∈ ds, lowercase l.property = l.property := by
  obtain rfl := Except.ok.inj ((expand_eq_ok (property_of_expand h)).symm.trans h)
  refine List.forall_mem_map.mpr fun l hl => ?_
  obtain ⟨name, value, rfl⟩ : ∃ name value, l = Declaration.of name value := by
    obtain ⟨family, policy⟩ := s
    cases family with
    | sides property naming =>
      simp only [Family.longhands, SidesShorthand.longhands] at hl
      split at hl
      · contradiction
      · obtain ⟨side, -, rfl⟩ := List.mem_map.mp hl
        exact ⟨_, _, rfl⟩
    | border =>
      obtain ⟨part, -, hpart⟩ := List.mem_filterMap.mp hl
      obtain ⟨w, -, rfl⟩ := Option.map_eq_some_iff.mp hpart
      exact ⟨_, _, rfl⟩
    | background =>
      obtain ⟨slot, -, rfl⟩ := List.mem_map.mp hl
      exact ⟨_, _, rfl⟩
    | font =>
      simp only [Family.longhands, FontShorthand.longhands] at hl
      split at hl
      · contradiction
      · obtain ⟨slot, -, rfl⟩ := List.mem_map.mp hl
        exact ⟨_, _, rfl⟩
  exact Declaration.lowercase_lowercase name

theorem lowercase_of_collapse (h : s.collapse ds = .ok d) : lowercase d.property = d.property := by
  obtain ⟨κ, a, hcollapse, -⟩ := exists_assembly s
  rw [hcollapse] at h
  obtain ⟨⟨value, hd⟩, -⟩ := Assembly.exists_of_collapse h
  rw [hd]
  exact Declaration.lowercase_lowercase a.property

end Shorthand

namespace Converter

variable {c : Converter} {d : Declaration} {ds : List Declaration}

theorem lowercase_of_expandDeclaration (h : c.expandDeclaration d = .ok (some ds)) :
    ∀ l ∈ ds, lowercase l.property = l.property := by
  rw [expandDeclaration] at h
  split at h
  · cases h
  · obtain ⟨ls, hls, hds⟩ := map_eq_ok.mp h
    cases hds
    exact Shorthand.lowercase_of_expand hls

theorem lowercase_of_collapseDeclarations {shorthand : String}
    (h : c.collapseDeclarations shorthand ds = .ok (some d)) : lowercase d.property = d.property := by
  rw [collapseDeclarations] at h
  split at h
  · cases h
  · obtain ⟨l, hl, hd⟩ := map_eq_ok.mp h
    cases hd
    exact Shorthand.lowercase_of_collapse hl

end Converter

namespace Step

def registration? : Step → Option (String × Shorthand)
  | register name h => some (name, h)
  | _ => none

def IsLowercase : Step → Prop
  | append ds => ∀ d ∈ ds, lowercase d.property = d.property
  | _ => True

end Step

namespace Session
open Registry (Ascending ofCalls lastCall?)

variable {s t : Session} {x : Step} {xs : List Step} {a : Answer} {e : ConversionError}

/-- All that a step can do to a session. -/
inductive Effect (s : Session) : Step → Session → Prop
  | text {x : Step} (hx : x.registration? = none) (text : String) : Effect s x { s with text }
  | list {x : Step} (hx : x.registration? = none) {list : List Declaration}
      (hlist : ∀ d ∈ list, d ∈ s.list ∨ lowercase d.property = d.property) :
      Effect s x { s with list }
  | append (ds : List Declaration) : Effect s (.append ds) { s with list := s.list ++ ds }
  | configure (settings : Settings) (keepRegistry : Bool) {r : Registry Shorthand}
      (hr : r = s.converter.registry ∨ r = .builtIn settings.duplicates) :
      Effect s (.configure settings keepRegistry) { s with converter := ⟨settings, r⟩ }
  | register (name : String) (h : Shorthand) : Effect s (.register name h) (s.register name h).1

theorem Effect.same (hx : x.registration? = none) : Effect s x s :=
  .text hx s.text

theorem Effect.withText (hx : x.registration? = none) (o : Option String) :
    Effect s x (s.withText o).1 := by
  cases o with
  | none => exact .same hx
  | some text => exact .text hx text

theorem effect_of_expandList (h : s.expandList = .ok (t, a)) : Effect s .expandList t := by
  rw [Session.expandList] at h
  split at h
  · cases h
    exact .same rfl
  · obtain ⟨o, ho, h⟩ := bind_eq_ok.mp h
    cases o with
    | none =>
      cases h
      exact .same rfl
    | some ds =>
      cases h
      exact .list rfl fun d hd => .inr (Converter.lowercase_of_expandDeclaration ho d hd)

theorem effect_of_collapseList {shorthand : String} (h : s.collapseList shorthand = .ok (t, a)) :
    Effect s (.collapseList shorthand) t := by
  obtain ⟨o, ho, h⟩ := bind_eq_ok.mp h
  cases o with
  | none =>
    cases h
    exact .same rfl
  | some d =>
    cases h
    have hd := Converter.lowercase_of_collapseDeclarations ho
    exact .list rfl (List.forall_mem_singleton.mpr (.inr hd))

theorem effect_of_step (h : s.step x = .ok (t, a)) : Effect s x t := by
  cases x with
  | setText text =>
    cases h
    exact .text rfl text
  | read =>
    obtain ⟨ds, hread, h⟩ := bind_eq_ok.mp h
    cases h
    exact .list rfl fun d hd => .inr (Reader.lowercase_of_read hread d hd)
  | print =>
    cases h
    exact .text rfl _
  | expand | collapse =>
    obtain ⟨o, -, h⟩ := map_eq_ok.mp h
    obtain rfl : (s.withText o).1 = t := congrArg Prod.fst h
    exact .withText rfl o
  | expandList => exact effect_of_expandList h
  | collapseList shorthand => exact effect_of_collapseList h
  | append ds =>
    cases h
    exact .append ds
  | remove property =>
    cases h
    exact .list rfl fun d hd => .inl (List.mem_of_mem_filter hd)
  | reverse =>
    cases h
    exact .list rfl fun d hd => .inl (List.mem_reverse.mp hd)
  | find | require =>
    obtain ⟨d, -, h⟩ := bind_eq_ok.mp h
    cases h
    exact .same rfl
  | configure settings keepRegistry =>
    cases h
    cases keepRegistry with
    | true => exact .configure settings true (.inl rfl)
    | false => exact .configure settings false (.inr rfl)
  | register name h' =>
    obtain rfl : (s.register name h').1 = t := congrArg Prod.fst (Except.ok.inj h)
    exact .register name h'
  | lookUp | contains | names | describe =>
    cases h
    exact .same rfl

theorem registration?_of_error (h : s.step x = .error e) : x.registration? = none := by
  cases x with
  | register => contradiction
  | _ => rfl

/-- A step that fails leaves the session as it was, and a registration does not fail. -/
theorem effect_of_tryStep (s : Session) (x : Step) : Effect s x (s.tryStep x).1 := by
  cases hs : s.step x with
  | error e =>
    rw [tryStep, hs]
    exact .same (registration?_of_error hs)
  | ok p =>
    rw [tryStep, hs]
    exact effect_of_step hs

theorem register_of_shared {r : Registry Shorthand} (hs : s.shared = some r) (name : String)
    (h : Shorthand) : (s.register name h).1 =
      { s.withRegistry (r.register name h).1 with shared := some (r.register name h).1 } := by
  rw [register, hs]

theorem register_of_unshared (hs : s.shared = none) (name : String) (h : Shorthand) :
    (s.register name h).1 = s.withRegistry (s.converter.registry.register name h).1 := by
  rw [register, hs]

theorem eq_of_tryStep_error (h : (s.tryStep x).2 = .error e) : (s.tryStep x).1 = s := by
  cases hx : s.step x with
  | error e => simp [tryStep, hx]
  | ok p => simp [tryStep, hx] at h

def after (s : Session) : List Step → Session
  | [] => s
  | x :: xs => (s.tryStep x).1.after xs

theorem run_append (s : Session) (xs ys : List Step) :
    s.run (xs ++ ys) = s.run xs ++ (s.after xs).run ys := by
  induction xs generalizing s with
  | nil => rfl
  | cons x xs ih => simp [run, after, ih]

/-- The other steps go on as if the one that fails were not there. -/
theorem run_of_error (h : ((s.after xs).tryStep x).2 = .error e) (ys : List Step) :
    ∃ rest, s.run (xs ++ ys) = s.run xs ++ rest ∧
      s.run (xs ++ x :: ys) = s.run xs ++ (s.after xs, .error e) :: rest := by
  refine ⟨(s.after xs).run ys, run_append s xs ys, ?_⟩
  rw [run_append]
  simp only [run, eq_of_tryStep_error h, h]

/-- What all effects of the steps keep is kept along the run. -/
theorem run_induction {P : Session → Prop} (h : P s)
    (hstep : ∀ x ∈ xs, ∀ s t, P s → Effect s x t → P t) :
    P (s.after xs) ∧ ∀ p ∈ s.run xs, P p.1 := by
  induction xs generalizing s with
  | nil => exact ⟨h, List.forall_mem_nil _⟩
  | cons x xs ih =>
    obtain ⟨hx, hxs⟩ := List.forall_mem_cons.mp hstep
    have hnext := hx s _ h (effect_of_tryStep s x)
    obtain ⟨hafter, hrun⟩ := ih hnext hxs
    exact ⟨hafter, List.forall_mem_cons.mpr ⟨hnext, hrun⟩⟩

structure Sound (s : Session) : Prop where
  lowercase : ∀ d ∈ s.list, lowercase d.property = d.property
  ordered : Ascending s.converter.registry.entries
  shared : ∀ r ∈ s.shared, Ascending r.entries

theorem sound_ofConverter {c : Converter} (h : Ascending c.registry.entries) :
    (ofConverter c).Sound :=
  ⟨List.forall_mem_nil _, h, nofun⟩

theorem sound_onShared (settings : Settings) {r : Registry Shorthand} (h : Ascending r.entries) :
    (onShared settings r).Sound :=
  ⟨List.forall_mem_nil _, h, fun _ hr => Option.some.inj hr ▸ h⟩

theorem Sound.effect (h : s.Sound) (hx : x.IsLowercase) (ht : Effect s x t) : t.Sound := by
  obtain ⟨hlist, hordered, hshared⟩ := h
  cases ht with
  | text => exact ⟨hlist, hordered, hshared⟩
  | list _ hmem => exact ⟨fun d hd => (hmem d hd).elim (hlist d) id, hordered, hshared⟩
  | append ds => exact ⟨List.forall_mem_append.mpr ⟨hlist, hx⟩, hordered, hshared⟩
  | configure settings _ hr =>
    have hkept := Registry.ascending_builtIn settings.duplicates
    exact ⟨hlist, hr.elim (fun h => h ▸ hordered) fun h => h ▸ hkept, hshared⟩
  | register name h =>
    cases hs : s.shared with
    | none =>
      rw [register_of_unshared hs]
      exact ⟨hlist, hordered.insert, hshared⟩
    | some r =>
      rw [register_of_shared hs]
      have hr : Ascending (r.register name h).1.entries := (hshared r hs).insert
      exact ⟨hlist, hr, fun r hr' => Option.some.inj hr' ▸ hr⟩

theorem Sound.run (h : s.Sound) (hxs : ∀ x ∈ xs, x.IsLowercase) :
    (s.after xs).Sound ∧ ∀ p ∈ s.run xs, p.1.Sound :=
  run_induction h fun x hx _ _ h ht => h.effect (hxs x hx) ht

/-- After any steps the names are listed without repetition in the order of their bytes. -/
theorem names_after (h : s.Sound) (hxs : ∀ x ∈ xs, x.IsLowercase) :
    ∃ names, ((s.after xs).tryStep .names).2 = .ok (.names names) ∧
      (names.map Text.bytes).Pairwise (· < ·) :=
  ⟨_, rfl, (h.run hxs).1.ordered.bytes⟩

theorem shared_of_effect (h : Effect s x t) :
    t.shared = s.shared.map fun r => r.registerAll x.registration?.toList := by
  cases h with
  | text hx | list hx => simp [hx, Registry.registerAll]
  | append | configure => simp [Step.registration?, Registry.registerAll]
  | register name h =>
    cases hs : s.shared with
    | none =>
      rw [register_of_unshared hs]
      exact hs
    | some r =>
      rw [register_of_shared hs]
      rfl

theorem shared_after (s : Session) (xs : List Step) : (s.after xs).shared =
    s.shared.map fun r => r.registerAll (xs.filterMap Step.registration?) := by
  induction xs generalizing s with
  | nil => simp [after, Registry.registerAll]
  | cons x xs ih =>
    rw [after, ih, shared_of_effect (effect_of_tryStep s x), List.filterMap_cons]
    cases x.registration? <;> simp [Registry.registerAll, Function.comp_def]

/-- In the shared registry the last registration of a name counts, whatever else the session does. -/
theorem lookUp_after {calls : List (String × Shorthand)} (hs : s.shared = some (ofCalls calls))
    (xs : List Step) (name : String) : ((s.after xs).tryStep (.lookUp name)).2 =
      .ok (nameAnswer (lastCall? (calls ++ xs.filterMap Step.registration?) name)) := by
  have hfollows := (Registry.follows_ofCalls calls).registerAll (xs.filterMap Step.registration?)
  have hshared := shared_after s xs
  rw [hs] at hshared
  simp only [tryStep, step, hshared, Option.map_some, Option.getD_some, hfollows.found]

end Session
end StyleFold
