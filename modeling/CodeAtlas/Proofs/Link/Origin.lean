import CodeAtlas.Link.Origin
import CodeAtlas.Proofs.Link.Search
import CodeAtlas.Proofs.Resolution.Memory
import CodeAtlas.Proofs.Text.TextMap
import Mathlib.Data.List.ProdSigma

/-!
# Origins are found by a plain search

The steps of a pair of file and name are leads to other pairs and to nodes (`leads`), and
`Landscape.origin` is the search along them that shares its marks. `Simulates` says that a step
of the search does what `SharedSearch` does on some leads: it leaves marks for the same pairs and
yields the same node, whatever faithful memory it starts with and however much fuel is left above
its budget. The budget counts the pairs of the pool that are not marked yet, and every pair in
whose module the search goes on is taken from the pool, so that the fuel never runs out
(`simulates_originWithin`).

Marks are texts `file#name`. They tell pairs apart if no file has a `#` in its path.
-/

namespace CodeAtlas.Link.Landscape

open CodeAtlas.Resolution CodeAtlas.Script CodeAtlas.Text

variable (l : Landscape)

/-! ## Leads -/

/-- Where an import leads: to a pair in the other module, or to its file if it asks for all. -/
def bindingLeads (path : String) (binding : ImportBinding) :
    List (Lead (String × String) NodeId) :=
  match (l.resolver.answer path binding.specifier).1 with
  | none => []
  | some target =>
    match exportName binding.imported with
    | some name => [.place (target, name)]
    | none => [.node (.file target)]

/-- Where a module passes a name on from: the named re-export, the sources of `export *` unless
the name is that of the default export, and the local export, followed through the import of its
name if there is one. -/
def moduleLeads (interface : ModuleInterface) (path name : String) :
    List (Lead (String × String) NodeId) :=
  let reexported := match interface.reexports[name]? with
    | some (.named specifier inner) => l.bindingLeads path ⟨specifier, .named inner⟩
    | some (.everything specifier) => l.bindingLeads path ⟨specifier, .allExports⟩
    | none => []
  let starred := if name = NodeId.defaultName then []
    else interface.starSources.flatMap fun specifier =>
      l.bindingLeads path ⟨specifier, .named name⟩
  let exported := match interface.localExports[name]? with
    | none => []
    | some inner =>
      match interface.imports[inner]? with
      | some binding => l.bindingLeads path binding
      | none => if inner = name then [] else [.node (.symbol path inner)]
  reexported ++ starred ++ exported

/-- The leads of a pair of file and name, its own declaration last. -/
def leads : String × String → List (Lead (String × String) NodeId)
  | (path, name) =>
    (match l.interfaces[path]? with
      | some interface => l.moduleLeads interface path name
      | none => []) ++ [.node (.symbol path name)]

/-! ## Running the steps -/

variable {l}

theorem run_firstOf_cons (a : Searching (Option NodeId)) (as : List (Searching (Option NodeId)))
    (s : Search) :
    (firstOf id (a :: as)).run s =
      match a.run s with
      | (some found, s) => (some found, s)
      | (none, s) => (firstOf id as).run s := by
  simp only [firstOf, StateT.run_bind, id_eq]
  rcases a.run s with ⟨_ | found, s'⟩ <;> rfl

/-- Steps in a row: the second part of a row is taken only if the first yields nothing. -/
theorem run_firstOf_append (as bs : List (Searching (Option NodeId))) (s : Search) :
    (firstOf id (as ++ bs)).run s =
      match (firstOf id as).run s with
      | (some found, s) => (some found, s)
      | (none, s) => (firstOf id bs).run s := by
  induction as generalizing s with
  | nil => rfl
  | cons a as ih =>
    rw [List.cons_append, run_firstOf_cons, run_firstOf_cons]
    rcases a.run s with ⟨_ | found, s'⟩
    · exact ih s'
    · rfl

/-- Following an import: the specifier is resolved, and where it leads to a known file, the search
goes on there or ends at the file itself. -/
theorem run_bindingOriginWith (origin : String → String → Searching (Option NodeId))
    (path : String) (binding : ImportBinding) (s : Search) :
    (l.bindingOriginWith origin path binding).run s =
      let resolved := (l.resolver.resolve path binding.specifier).run s.memory
      let s := { s with memory := resolved.2 }
      match resolved.1 with
      | none => (none, s)
      | some target =>
        match exportName binding.imported with
        | some name => (origin target name).run s
        | none => (l.existing (.file target), s) := by
  have resolve : (l.resolve path binding.specifier).run s =
      (((l.resolver.resolve path binding.specifier).run s.memory).1,
        { s with memory := ((l.resolver.resolve path binding.specifier).run s.memory).2 }) := rfl
  unfold bindingOriginWith
  rw [StateT.run_bind, resolve]
  rcases (l.resolver.resolve path binding.specifier).run s.memory with ⟨_ | target, memory⟩
  · rfl
  · cases exportName binding.imported <;> rfl

/-- A pair that is not marked yet is marked, and its steps are followed, its own declaration
last. -/
theorem run_originWithin (fuel : Nat) (path name : String) (s : Search) :
    (l.originWithin (fuel + 1) path name).run s =
      if s.visited.contains (path ++ "#" ++ name) then (none, s)
      else
        (firstOf id (l.stepsAt (l.originWithin fuel) path name ++
          [pure (l.existing (.symbol path name))])).run
            { s with visited := s.visited.insert (path ++ "#" ++ name) } := by
  have mark : (visit path name).run s =
      if s.visited.contains (path ++ "#" ++ name) then (false, s)
      else (true, { s with visited := s.visited.insert (path ++ "#" ++ name) }) := rfl
  rw [originWithin, StateT.run_bind, mark, run_firstOf_append]
  by_cases h : s.visited.contains (path ++ "#" ++ name)
  · rw [if_pos h, if_pos h]
    rfl
  · rw [if_neg h, if_neg h]
    generalize firstOf id (l.stepsAt (l.originWithin fuel) path name) = steps
    generalize { s with visited := s.visited.insert (path ++ "#" ++ name) } = marked
    change (steps >>= _ : Searching (Option NodeId)).run marked = _
    rw [StateT.run_bind]
    rcases steps.run marked with ⟨_ | found, s'⟩
    · change _ = (firstOf id [pure (l.existing (.symbol path name))]).run s'
      rw [run_firstOf_cons]
      cases l.existing (.symbol path name) <;> rfl
    · rfl

/-- A step that marks a pair first, and finds nothing if the pair is marked already. -/
def entering (path name : String) (step : Searching (Option NodeId)) :
    Searching (Option NodeId) := fun s =>
  if s.visited.contains (path ++ "#" ++ name) then (none, s)
  else step.run { s with visited := s.visited.insert (path ++ "#" ++ name) }

theorem run_entering (path name : String) (step : Searching (Option NodeId)) (s : Search) :
    (entering path name step).run s =
      if s.visited.contains (path ++ "#" ++ name) then (none, s)
      else step.run { s with visited := s.visited.insert (path ++ "#" ++ name) } := rfl

/-- The steps of a search follow an import each, or look whether a node is there. -/
theorem mem_steps {origin : String → String → Searching (Option NodeId)}
    {interface : ModuleInterface} {path name : String} {a : Searching (Option NodeId)}
    (h : a ∈ l.steps origin interface path name) :
    (∃ binding, a = l.bindingOriginWith origin path binding) ∨
      ∃ id, a = pure (l.existing id) := by
  unfold steps at h
  rcases List.mem_append.mp h with h | h
  · rcases List.mem_append.mp h with h | h
    · split at h
      · exact .inl ⟨_, List.mem_singleton.mp h⟩
      · exact .inl ⟨_, List.mem_singleton.mp h⟩
      · exact absurd h List.not_mem_nil
    · split at h
      · exact absurd h List.not_mem_nil
      · obtain ⟨specifier, -, rfl⟩ := List.mem_map.mp h
        exact .inl ⟨_, rfl⟩
  · split at h
    · exact absurd h List.not_mem_nil
    · split at h
      · exact .inl ⟨_, List.mem_singleton.mp h⟩
      · split at h
        · exact absurd h List.not_mem_nil
        · exact .inr ⟨_, List.mem_singleton.mp h⟩

/-- What holds of looking whether a node is there, and is kept by following an import, by taking
the first result and by marking a pair, holds of every search. The induction is on the fuel. -/
theorem forall_originWithin {P : Searching (Option NodeId) → Prop}
    (existing : ∀ id, P (pure (l.existing id)))
    (followed : ∀ origin, (∀ path name, P (origin path name)) →
      ∀ path binding, P (l.bindingOriginWith origin path binding))
    (first : ∀ as, (∀ a ∈ as, P a) → P (firstOf id as))
    (entered : ∀ path name a, P a → P (entering path name a)) (fuel : Nat) (path name : String) :
    P (l.originWithin fuel path name) := by
  induction fuel generalizing path name with
  | zero => exact first [] fun _ h => absurd h List.not_mem_nil
  | succ fuel ih =>
    have steps : ∀ a ∈ l.stepsAt (l.originWithin fuel) path name ++
        [pure (l.existing (.symbol path name))], P a := by
      intro a ha
      rcases List.mem_append.mp ha with ha | ha
      · unfold stepsAt at ha
        split at ha
        · rcases mem_steps ha with ⟨binding, rfl⟩ | ⟨id, rfl⟩
          · exact followed _ ih path binding
          · exact existing id
        · exact absurd ha List.not_mem_nil
      · rw [List.mem_singleton.mp ha]
        exact existing _
    have run : l.originWithin (fuel + 1) path name =
        entering path name (firstOf id (l.stepsAt (l.originWithin fuel) path name ++
          [pure (l.existing (.symbol path name))])) :=
      funext fun s => run_originWithin fuel path name s
    rw [run]
    exact entered path name _ (first _ steps)

/-! ## Simulation -/

/-- The marks of a search are those of the pairs `seen`, and its memory is faithful. -/
structure Tracks (l : Landscape) (s : Search) (seen : List (String × String)) : Prop where
  faithful : s.memory.Faithful l.resolver
  visited : ∀ path name, '#' ∉ path.toList →
    (path ++ "#" ++ name ∈ s.visited ↔ (path, name) ∈ seen)

/-- The action does what a shared search along the leads `ls` does, whenever at most `budget`
pairs of the pool are unmarked and more fuel than that is left. -/
def Simulates (l : Landscape) (pool : List (String × String)) (budget : Nat)
    (action : Nat → Searching (Option NodeId)) (ls : List (Lead (String × String) NodeId)) :
    Prop :=
  ∀ s seen, l.Tracks s seen → (pool.filter (· ∉ seen)).length ≤ budget →
    ∃ r s' seen', SharedSearch l.leads (fun id => l.graph.contains id) seen ls r seen' ∧
      l.Tracks s' seen' ∧ ∀ fuel, budget < fuel → (action fuel).run s = (r, s')

variable {pool : List (String × String)} {budget : Nat}

/-- A mark of one more pair tells it from all others, since no path holds a `#`. This is where the
assumption on paths comes in. -/
theorem Tracks.mark {s : Search} {seen : List (String × String)} (h : l.Tracks s seen)
    {path : String} (hpath : '#' ∉ path.toList) (name : String) :
    l.Tracks { s with visited := s.visited.insert (path ++ "#" ++ name) } ((path, name) :: seen) where
  faithful := h.faithful
  visited p n hp := by
    have same : path ++ "#" ++ name = p ++ "#" ++ n ↔ (p, n) = (path, name) := by
      constructor
      · intro he
        have hchars := congrArg String.toList he
        simp only [String.toList_append, List.append_assoc] at hchars
        obtain ⟨h1, h2⟩ := append_cons_inj hpath hp hchars
        rw [String.toList_inj.mp h1, String.toList_inj.mp h2]
      · intro he
        cases he
        rfl
    rw [Std.ExtTreeSet.mem_insert, Std.LawfulEqCmp.compare_eq_iff_eq, same, List.mem_cons,
      h.visited p n hp]

/-- Looking whether a node is there is a search along a single lead. -/
theorem simulates_existing (id : NodeId) :
    l.Simulates pool budget (fun _ => pure (l.existing id)) [.node id] := by
  intro s seen htracks _
  by_cases hid : l.graph.contains id
  · have run : (pure (l.existing id) : Searching (Option NodeId)).run s = (some id, s) := by
      rw [existing, if_pos hid]
      rfl
    exact ⟨some id, s, seen, .present hid, htracks, fun _ _ => run⟩
  · have run : (pure (l.existing id) : Searching (Option NodeId)).run s = (none, s) := by
      rw [existing, if_neg hid]
      rfl
    exact ⟨none, s, seen, .absent hid .nil, htracks, fun _ _ => run⟩

/-! ## Steps in a row -/

theorem length_filter_mono {seen seen' : List (String × String)} (h : seen ⊆ seen') :
    (pool.filter (· ∉ seen')).length ≤ (pool.filter (· ∉ seen)).length := by
  rw [← List.countP_eq_length_filter, ← List.countP_eq_length_filter]
  refine List.countP_mono_left ?_
  intro p _ hp
  simp only [decide_eq_true_eq] at hp ⊢
  exact fun hm => hp (h hm)

theorem simulates_nil : l.Simulates pool budget (fun _ => firstOf id []) [] :=
  fun s seen htracks _ => ⟨none, s, seen, .nil, htracks, fun _ _ => rfl⟩

theorem Simulates.singleton {a : Nat → Searching (Option NodeId)}
    {ls : List (Lead (String × String) NodeId)} (ha : l.Simulates pool budget a ls) :
    l.Simulates pool budget (fun fuel => firstOf id [a fuel]) ls := by
  intro s seen htracks hbudget
  obtain ⟨r, s', seen', search, tracks, run⟩ := ha s seen htracks hbudget
  refine ⟨r, s', seen', search, tracks, ?_⟩
  intro fuel hfuel
  rw [run_firstOf_cons, run fuel hfuel]
  cases r <;> rfl

/-- Two rows of steps are simulated by their leads in a row, the second with the marks that the
first leaves. -/
theorem Simulates.append {as bs : Nat → List (Searching (Option NodeId))}
    {ls more : List (Lead (String × String) NodeId)}
    (ha : l.Simulates pool budget (fun fuel => firstOf id (as fuel)) ls)
    (hb : l.Simulates pool budget (fun fuel => firstOf id (bs fuel)) more) :
    l.Simulates pool budget (fun fuel => firstOf id (as fuel ++ bs fuel)) (ls ++ more) := by
  intro s seen htracks hbudget
  obtain ⟨r, s', seen', search, tracks, run⟩ := ha s seen htracks hbudget
  cases r with
  | some found =>
    refine ⟨some found, s', seen', search.append_some more, tracks, ?_⟩
    intro fuel hfuel
    rw [run_firstOf_append, run fuel hfuel]
  | none =>
    have hbudget' := Nat.le_trans (length_filter_mono search.mono) hbudget
    obtain ⟨r, s'', seen'', search', tracks', run'⟩ := hb s' seen' tracks hbudget'
    refine ⟨r, s'', seen'', search.append_none search', tracks', ?_⟩
    intro fuel hfuel
    rw [run_firstOf_append, run fuel hfuel]
    exact run' fuel hfuel

theorem Simulates.flatMap {α : Type} {action : α → Nat → Searching (Option NodeId)}
    {lsOf : α → List (Lead (String × String) NodeId)}
    (h : ∀ a, l.Simulates pool budget (action a) (lsOf a)) (as : List α) :
    l.Simulates pool budget (fun fuel => firstOf id (as.map fun a => action a fuel))
      (as.flatMap lsOf) := by
  induction as with
  | nil => exact simulates_nil
  | cons a as ih => exact (h a).singleton.append ih

/-! ## The steps of a module -/

/-- The names that a search for `name` can ask for. -/
def namesFrom (l : Landscape) (name : String) : List String :=
  name :: l.interfaces.values.flatMap askedNames

/-- Asking for any of some names in a known file is simulated. -/
def SimulatesNames (l : Landscape) (pool : List (String × String)) (budget : Nat)
    (names : List String) : Prop :=
  ∀ target name, target ∈ l.resolver.known → name ∈ names →
    l.Simulates pool budget (fun fuel => l.originWithin fuel target name) [.place (target, name)]

/-- Following an import is simulated by its leads, if asking the other module for the name is. -/
theorem simulates_binding {names : List String} (h : l.SimulatesNames pool budget names)
    (path : String) (binding : ImportBinding)
    (hname : ∀ name, exportName binding.imported = some name → name ∈ names) :
    l.Simulates pool budget (fun fuel => l.bindingOriginWith (l.originWithin fuel) path binding)
      (l.bindingLeads path binding) := by
  intro s seen htracks hbudget
  obtain ⟨hanswer, hfaithful⟩ := htracks.faithful.resolve path binding.specifier
  have htracks' : l.Tracks
      { s with memory := ((l.resolver.resolve path binding.specifier).run s.memory).2 } seen :=
    ⟨hfaithful, htracks.visited⟩
  simp only [run_bindingOriginWith, hanswer]
  unfold bindingLeads
  cases htarget : (l.resolver.answer path binding.specifier).1 with
  | none => exact ⟨none, _, seen, .nil, htracks', fun _ _ => rfl⟩
  | some target =>
    cases hexport : exportName binding.imported with
    | none => exact simulates_existing (.file target) _ seen htracks' hbudget
    | some name =>
      exact h target name (mem_known_of_answer htarget) (hname name hexport) _ seen htracks' hbudget

theorem mem_askedNames_of_reexport {interface : ModuleInterface} {name specifier inner : String}
    (h : interface.reexports[name]? = some (.named specifier inner)) :
    inner ∈ askedNames interface := by
  refine List.mem_append_left _ (List.mem_map.mpr ⟨.named specifier inner, ?_, rfl⟩)
  exact TextMap.mem_values.mpr ⟨name, h⟩

theorem mem_askedNames_of_import {interface : ModuleInterface} {inner name : String}
    {binding : ImportBinding} (h : interface.imports[inner]? = some binding)
    (hname : exportName binding.imported = some name) : name ∈ askedNames interface := by
  refine List.mem_append_right _ (List.mem_map.mpr ⟨binding, ?_, by rw [hname]; rfl⟩)
  exact TextMap.mem_values.mpr ⟨inner, h⟩

/-- The steps of a module are simulated by its leads, in the order named re-export, `export *`,
local export. -/
theorem simulates_steps {names : List String} (h : l.SimulatesNames pool budget names)
    {interface : ModuleInterface} (hasked : ∀ name ∈ askedNames interface, name ∈ names)
    (path : String) {name : String} (hname : name ∈ names) :
    l.Simulates pool budget
      (fun fuel => firstOf id (l.steps (l.originWithin fuel) interface path name))
      (l.moduleLeads interface path name) := by
  unfold steps moduleLeads
  refine Simulates.append (Simulates.append ?reexported ?starred) ?exported
  case reexported =>
    cases hre : interface.reexports[name]? with
    | none => exact simulates_nil
    | some reexport =>
      cases reexport with
      | named specifier inner =>
        refine (simulates_binding h path ⟨specifier, .named inner⟩ ?_).singleton
        intro n hn
        cases hn
        exact hasked _ (mem_askedNames_of_reexport hre)
      | everything specifier =>
        refine (simulates_binding h path ⟨specifier, .allExports⟩ ?_).singleton
        intro n hn
        cases hn
  case starred =>
    by_cases hdefault : name = NodeId.defaultName
    · simp only [if_pos hdefault]
      exact simulates_nil
    · simp only [if_neg hdefault]
      refine Simulates.flatMap (fun specifier => simulates_binding h path _ ?_) _
      intro n hn
      cases hn
      exact hname
  case exported =>
    cases hexported : interface.localExports[name]? with
    | none => exact simulates_nil
    | some inner =>
      dsimp only
      cases himport : interface.imports[inner]? with
      | some binding =>
        refine (simulates_binding h path binding ?_).singleton
        intro n hn
        exact hasked _ (mem_askedNames_of_import himport hn)
      | none =>
        by_cases hinner : inner = name
        · simp only [if_pos hinner]
          exact simulates_nil
        · simp only [if_neg hinner]
          exact (simulates_existing _).singleton

/-! ## The search as a whole -/

/-- The pairs that a search for one of some names can go on from. -/
def pairsOf (l : Landscape) (names : List String) : List (String × String) :=
  l.interfaces.keys ×ˢ names

/-- A pair that is entered is given the steps of its module. Only here a pair of the pool is
used up, which lowers the budget by one. -/
theorem simulates_entered {names : List String} {budget : Nat}
    (hsmaller : ∀ smaller < budget, l.SimulatesNames (l.pairsOf names) smaller names)
    (hasked : ∀ interface ∈ l.interfaces.values, ∀ name ∈ askedNames interface, name ∈ names)
    {path name : String} (hname : name ∈ names) {s : Search} {seen : List (String × String)}
    (hnew : (path, name) ∉ seen) (htracks : l.Tracks s ((path, name) :: seen))
    (hbudget : ((l.pairsOf names).filter (· ∉ seen)).length ≤ budget) :
    ∃ r s' seen', SharedSearch l.leads (fun id => l.graph.contains id) ((path, name) :: seen)
        (l.leads (path, name)) r seen' ∧
      l.Tracks s' seen' ∧ ∀ fuel, budget ≤ fuel →
        (firstOf id (l.stepsAt (l.originWithin fuel) path name ++
          [pure (l.existing (.symbol path name))])).run s = (r, s') := by
  have own : ∀ b, l.Simulates (l.pairsOf names) b
      (fun _ => firstOf id [pure (l.existing (.symbol path name))])
      [.node (.symbol path name)] := fun b => (simulates_existing _).singleton
  unfold stepsAt
  cases hinterface : l.interfaces[path]? with
  | none =>
    have hleads : l.leads (path, name) = [.node (.symbol path name)] := by
      simp [leads, hinterface]
    rw [hleads]
    have hle := Nat.le_trans (length_filter_mono (List.subset_cons_self (path, name) seen)) hbudget
    obtain ⟨r, s', seen', search, tracks, run⟩ := own budget s _ htracks hle
    exact ⟨r, s', seen', search, tracks, fun _ _ => run (budget + 1) (Nat.lt_succ_self _)⟩
  | some interface =>
    have hleads : l.leads (path, name) =
        l.moduleLeads interface path name ++ [.node (.symbol path name)] := by
      simp [leads, hinterface]
    rw [hleads]
    have hvalue : interface ∈ l.interfaces.values := TextMap.mem_values.mpr ⟨path, hinterface⟩
    have hpool : (path, name) ∈ l.pairsOf names := by
      refine List.pair_mem_product.mpr ⟨?_, hname⟩
      rw [Std.ExtTreeMap.mem_keys, Std.ExtTreeMap.mem_iff_isSome_getElem?, hinterface]
      rfl
    -- the pair is in the pool and was not marked, so the budget is not zero
    have hless := length_filter_cons_lt hpool hnew
    obtain ⟨smaller, rfl⟩ : ∃ smaller, budget = smaller + 1 :=
      Nat.exists_eq_add_one_of_ne_zero (by omega)
    have steps := simulates_steps (hsmaller smaller (Nat.lt_succ_self _))
      (hasked interface hvalue) path hname
    obtain ⟨r, s', seen', search, tracks, run⟩ :=
      steps.append (own smaller) s _ htracks (by omega)
    exact ⟨r, s', seen', search, tracks, fun fuel hfuel => run fuel hfuel⟩

/-- With more fuel than unmarked pairs in the pool, the search is the shared search. -/
theorem simulates_originWithin (hknown : ∀ file ∈ l.resolver.known, '#' ∉ file.toList)
    {names : List String}
    (hasked : ∀ interface ∈ l.interfaces.values, ∀ name ∈ askedNames interface, name ∈ names)
    (budget : Nat) {path name : String} (hpath : '#' ∉ path.toList) (hname : name ∈ names) :
    l.Simulates (l.pairsOf names) budget (fun fuel => l.originWithin fuel path name)
      [.place (path, name)] := by
  induction budget using Nat.strongRecOn generalizing path name with
  | _ budget ih =>
    have hsmaller : ∀ smaller < budget, l.SimulatesNames (l.pairsOf names) smaller names :=
      fun smaller hlt target n htarget hn => ih smaller hlt (hknown target htarget) hn
    intro s seen htracks hbudget
    have hmarked := htracks.visited path name hpath
    by_cases hseen : (path, name) ∈ seen
    · refine ⟨none, s, seen, .refused hseen .nil, htracks, ?_⟩
      intro fuel hfuel
      obtain ⟨fuel, rfl⟩ := Nat.exists_eq_add_one_of_ne_zero (Nat.ne_zero_of_lt hfuel)
      rw [run_originWithin, if_pos (Std.ExtTreeSet.contains_iff_mem.mpr (hmarked.mpr hseen))]
    · obtain ⟨r, s', seen', search, tracks, run⟩ :=
        simulates_entered hsmaller hasked hname hseen (htracks.mark hpath name) hbudget
      refine ⟨r, s', seen', ?_, tracks, ?_⟩
      · cases r with
        | some found => exact .found hseen search
        | none => exact .missed hseen search .nil
      · intro fuel hfuel
        obtain ⟨fuel, rfl⟩ := Nat.exists_eq_add_one_of_ne_zero (Nat.ne_zero_of_lt hfuel)
        rw [run_originWithin, if_neg fun h => hseen (hmarked.mp (Std.ExtTreeSet.contains_iff_mem.mp h))]
        exact run fuel (by omega)

/-- The fuel of a search is more than the number of pairs that it can mark. -/
theorem length_pairsOf_lt_searchBound (l : Landscape) (name : String) :
    (l.pairsOf (l.namesFrom name)).length < l.searchBound := by
  have count : (l.interfaces.values.flatMap askedNames).length =
      (l.interfaces.values.map fun i => (askedNames i).length).foldr (· + ·) 0 :=
    List.length_flatMap
  rw [pairsOf, List.length_product, namesFrom, List.length_cons, count,
    Std.ExtTreeMap.length_keys]
  unfold searchBound
  dsimp only
  omega

/-- What a search from a pair does, whatever it remembers and with the bound or more as fuel. -/
theorem exists_sharedSearch (hknown : ∀ file ∈ l.resolver.known, '#' ∉ file.toList)
    {path : String} (hpath : '#' ∉ path.toList) (name : String) {memory : Memory}
    (hmemory : memory.Faithful l.resolver) :
    ∃ r s seen, SharedSearch l.leads (fun id => l.graph.contains id) [] [.place (path, name)] r seen ∧
      ∀ fuel, l.searchBound ≤ fuel → (l.originWithin fuel path name).run ⟨memory, ∅⟩ = (r, s) := by
  have hasked : ∀ interface ∈ l.interfaces.values, ∀ n ∈ askedNames interface,
      n ∈ l.namesFrom name := fun interface hi n hn =>
    List.mem_cons_of_mem name (List.mem_flatMap.mpr ⟨interface, hi, hn⟩)
  have htracks : l.Tracks ⟨memory, ∅⟩ [] := ⟨hmemory, fun p n _ => by simp⟩
  obtain ⟨r, s, seen, search, -, run⟩ :=
    simulates_originWithin hknown hasked (l.pairsOf (l.namesFrom name)).length hpath
      List.mem_cons_self ⟨memory, ∅⟩ [] htracks (List.length_filter_le _ _)
  have hbound := length_pairsOf_lt_searchBound l name
  exact ⟨r, s, seen, search, fun fuel hfuel => run fuel (by omega)⟩

/-- **Origins are found by a plain search.** If no file has a `#` in its path, then whatever was
asked before, `origin` yields what the plain search for the pair yields, and the plain search
yields exactly one result. That is a node just if a chain of steps from the pair ends at a node of
the graph, and then it is a node of the graph. More fuel than the bound changes nothing, so the
bound is never what ends a search. -/
theorem origin_eq_plain (l : Landscape) (hknown : ∀ file ∈ l.resolver.known, '#' ∉ file.toList)
    (path name : String) (hpath : '#' ∉ path.toList) :
    ∃ result,
      (PlainSearch l.leads (fun id => l.graph.contains id) [] [.place (path, name)] result ∧
        ∀ other, PlainSearch l.leads (fun id => l.graph.contains id) [] [.place (path, name)] other →
          other = result) ∧
      (∀ asked diagnostics,
        ((l.origin path name).run (l.resolver.after ⟨∅, diagnostics⟩ asked)).1 = result) ∧
      (∀ asked diagnostics fuel, l.searchBound ≤ fuel →
        (l.originWithin fuel path name).run ⟨l.resolver.after ⟨∅, diagnostics⟩ asked, ∅⟩ =
          (l.originWithin l.searchBound path name).run
            ⟨l.resolver.after ⟨∅, diagnostics⟩ asked, ∅⟩) ∧
      (result.isSome ↔ ∃ id, l.graph.contains id ∧ Chain l.leads (path, name) id) ∧
      ∀ id, result = some id → l.graph.contains id := by
  have run : ∀ asked diagnostics, ∃ r s seen,
      SharedSearch l.leads (fun id => l.graph.contains id) [] [.place (path, name)] r seen ∧
        ∀ fuel, l.searchBound ≤ fuel →
          (l.originWithin fuel path name).run ⟨l.resolver.after ⟨∅, diagnostics⟩ asked, ∅⟩ =
            (r, s) := fun asked diagnostics =>
    exists_sharedSearch hknown hpath name ((Memory.faithful_new diagnostics).after asked)
  obtain ⟨result, s, seen, search, -⟩ := run [] []
  have plain := search.plain
  refine ⟨result, ⟨plain, fun other hother => hother.unique plain⟩, ?_, ?_, search.isSome_iff, ?_⟩
  · intro asked diagnostics
    obtain ⟨r, s', seen', search', run'⟩ := run asked diagnostics
    have hr : ((l.origin path name).run (l.resolver.after ⟨∅, diagnostics⟩ asked)).1 = r :=
      congrArg Prod.fst (run' _ (Nat.le_refl _))
    rw [hr]
    exact search'.plain.unique plain
  · intro asked diagnostics fuel hfuel
    obtain ⟨r, s', seen', -, run'⟩ := run asked diagnostics
    rw [run' fuel hfuel, run' _ (Nat.le_refl _)]
  · intro id hid
    exact (plain.chain hid).1

/-- Modules `a` and `b` pass on all that the other exports, and `b` then all that `c` exports. -/
def cycle : Landscape where
  graph := (((∅ : SymbolGraph).ensureFile "a").ensureFile "b").ensureSymbol "c" "x" .function
  interfaces := .ofList [("a", { ModuleInterface.empty with starSources := ["./b"] }),
    ("b", { ModuleInterface.empty with starSources := ["./a", "./c"] })]
  resolver := ⟨.ofList ["a", "b", "c"], ⟨[], []⟩⟩

/-- From `a` the name is found past the cycle, in `c`. -/
theorem origin_eq_plain_cycle :
    (∀ file ∈ cycle.resolver.known, '#' ∉ file.toList) ∧ '#' ∉ "a".toList ∧
      PlainSearch cycle.leads (fun id => cycle.graph.contains id) [] [.place ("a", "x")]
        (some (.symbol "c" "x")) := by
  have hknown : ∀ file ∈ cycle.resolver.known, '#' ∉ file.toList := by
    intro file hfile
    have hlisted : file ∈ ["a", "b", "c"] := by
      simpa [cycle, Std.ExtTreeSet.mem_ofList] using hfile
    clear hfile
    revert file
    decide
  have hpath : '#' ∉ "a".toList := by decide
  obtain ⟨result, ⟨plain, -⟩, same, -⟩ := origin_eq_plain cycle hknown "a" "x" hpath
  have found : ((cycle.origin "a" "x").run (cycle.resolver.after ⟨∅, []⟩ [])).1 =
      some (.symbol "c" "x") := by decide
  rw [same] at found
  exact ⟨hknown, hpath, found ▸ plain⟩

end CodeAtlas.Link.Landscape
